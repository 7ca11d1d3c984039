import Comp304.Alloc.FreeOrder
import Comp304.Alloc.Requests

/-! A block that is freed at once after it was handed out. If the heap had grown
for it, it is the last block, and giving it back ends the heap where it ended
before. If it was cut from a listed block, the remainder is its right neighbour
on the list, and the two become one again; if it was a listed block as a whole,
it has no free neighbour and goes back on the list. None of this needs the
remainder to be large enough for a node: what is written beyond it lies in the
live block behind, and no list node begins there. -/
namespace Comp304.Alloc
open Library.Budget Library.ByteMemory Library.Lp64 Library.Extents Library.LinkedChain Heap

/-- `kufree` of the pointer returns, within this many rounds, and what is free and where
the heap ends are then as in the heap before. -/
def Restores (sys : System) (before h : Heap) (ptr enough : Nat) : Prop :=
  ∃ k, (∀ rounds, Settles .spent enough rounds (kufree sys rounds h ptr) (.ok k)) ∧
    (∀ e, before.FreeExtent e ↔ k.FreeExtent e) ∧ k.top sys = before.top sys

/-- `kumalloc` and at once `kufree` of what it handed out: both return, and the free
extents and the end of the heap are the same as before. -/
def Undoes (sys : System) (h : Heap) (size : Nat) : Prop :=
  ∃ p h' k enough, (∀ rounds, enough < rounds →
      kumalloc sys rounds h size = .ok (p, h') ∧ kufree sys rounds h' p = .ok k) ∧
    (∀ e, h.FreeExtent e ↔ k.FreeExtent e) ∧ k.top sys = h.top sys

/-- The block is out of the list, and nothing remains of it there. -/
structure Removed (h h' : Heap) (front back : List Nat) (block : Nat) : Prop
    extends Relinked h h' front back block (h.word (block + 8)) where
  header : h'.word block = h.word block

section
variable {sys : System} {s : State} {h h' g k : Heap} {live : List Block} {free : List Nat}

/-- The same nodes with the same sizes are the same free extents. -/
theorem freeExtent_same (list : h.FreeList free) (list' : k.FreeList free')
    (same : free'.Perm free) (sizes : ∀ n ∈ free, k.word n = h.word n) (e : Extent) :
    h.FreeExtent e ↔ k.FreeExtent e := by
  have extents : free.map k.extentAt = free.map h.extentAt :=
    List.map_congr_left fun n member => congrArg (Extent.mk n) (sizes n member)
  rw [freeExtent_iff list, freeExtent_iff list', (same.map k.extentAt).mem_iff, extents]

/-! ### Growth -/

/-- A block the heap has just grown for is given back, and nothing more is. -/
theorem grown_undone (tidy : Tidy sys h live free) (grown : Grown sys h total block g)
    (wide : 8 ≤ total) (small : total < 2 ^ 63) :
    Restores sys h (g.put block total) (block + 8) free.length := by
  have atTop := grown.at_top tidy
  have low : sys.base ≤ block := atTop ▸ tidy.space.tiling.ordered
  have within := grown.within
  have high := grown.ledger.high
  have limit := sys.limit_lt
  have base := sys.base_above
  have lowered : Lowered sys (g.put block total) (lowerEnd sys (g.put block total) block total) block :=
    lower_lowered small within high
  generalize final : lowerEnd sys (g.put block total) block total = k at lowered
  have word : ∀ n ∈ free, k.word n = h.word n ∧ k.word (n + 8) = h.word (n + 8) := by
    intro n member
    obtain ⟨-, size, next⟩ := grown.words tidy member
    exact ⟨(lowered.word n).trans size, (lowered.word (n + 8)).trans next⟩
  have list : k.FreeList free := by
    have head : k.head = h.head := lowered.head.trans grown.head
    rw [FreeList, head]
    exact chain_congr (fun n member => (word n member).2) tidy.chain
  refine ⟨k, fun rounds => ?_, freeExtent_same tidy.chain list (List.Perm.refl _)
    fun n member => (word n member).1, ?_⟩
  · have read : (g.put block total).accessible sys block 8 = true := by
      rw [put_accessible]
      exact grown.header_accessible tidy wide
    have size : (g.put block total).word block = total := word_put_same (by omega)
    have last : (g.put block total).blockEnd = block + total := by
      rw [put_blockEnd, grown.blockEnd]
    rw [kufree_eq read size (by omega), if_pos last, final]
    refine trimLoop_idle (fun n member => ?_) (fun n member => ?_) list
    · have below := (grown.words tidy member).1
      have bounds := tidy.node_bounds member
      have low' := lowered.low
      exact ⟨accessible_inside (by omega) (by omega) lowered.high,
        accessible_inside (by omega) (by omega) lowered.high⟩
    · have below := (grown.words tidy member).1
      rw [lowered.blockEnd, (word n member).1, add_of_lt (by omega)]
      omega
  · rw [top, lowered.blockEnd, if_neg (by omega), atTop]

/-! ### A part of a listed block -/

/-- The remainder's `prev` is the node in front of it. -/
theorem unlinkNext_links_back (tidy : Tidy sys h live (front ++ p :: block :: back))
    (wide : 16 ≤ total) (room : total + 8 ≤ h.word block)
    (ran : unlinkNext sys (block + total) ((h.word block - total : Nat) : Int)
      (stamped h block total) p = .ok h') : h'.word (block + total + 16) = p := by
  obtain ⟨_, _, rfl, rfl⟩ := unlinkNext_writes tidy wide room ran
  have bounds := tidy.node_bounds (n := p) (by simp)
  have high := tidy.ledger.high
  have limit := sys.limit_lt
  exact word_put_same (by omega)

/-- A block that is not used up is divided, and its remainder is the head or has its `prev`. -/
theorem reuseBlock_divides (tidy : Tidy sys h live (front ++ block :: back)) (wide : 16 ≤ total)
    (room : total + 8 ≤ h.word block) (ran : reuseBlock sys rounds h block total = .ok h') :
    Divided h h' front back block total ∧
      h'.LinkedBack (front ++ (block + total) :: back) (block + total) := by
  obtain ⟨rfl, -, split⟩ | ⟨front, p, rfl, -, split⟩ := reuseBlock_cases tidy wide (by omega) ran
  · have divided := reuseHead_divided tidy wide room split
    have list : h'.FreeList ([] ++ (block + total) :: back) := divided.freeList tidy wide
    refine ⟨divided, fun before member follows => ?_⟩
    -- nothing is in front of the head
    have first : h'.head = block + total := (chain_cons.mp list).1
    obtain ⟨ahead, behind, shape⟩ := follows_iff.mp follows
    exact absurd first (shape ▸ list).start_ne
  · have shape (node : Nat) : (front ++ [p]) ++ node :: back = front ++ p :: node :: back := by simp
    have divided := unlinkNext_divided (shape block ▸ tidy) wide room split
    refine ⟨divided, fun before member follows => ?_⟩
    have list := divided.freeList tidy wide
    have leads : h'.nextAt before = block + total := by
      obtain ⟨ahead, behind, split⟩ := follows_iff.mp follows
      exact (split ▸ list).next_eq
    have prev : h'.prevAt (block + total) = p :=
      unlinkNext_links_back (shape block ▸ tidy) wide room split
    rw [shape] at list member
    rw [prev, list.before_unique member leads]

/-- The remainder ends where the block did, before the last one. -/
theorem Divided.node_bounds (divided : Divided h h' front back block total)
    (tidy : Tidy sys h live (front ++ block :: back)) (room : total + 8 ≤ h.word block)
    (member : n ∈ front ++ (block + total) :: back) :
    sys.base ≤ n ∧ n + h'.word n + 16 ≤ h.blockEnd ∧ 8 ≤ h'.word n := by
  cases List.mem_cons.mp (List.perm_middle.mem_iff.mp member) with
  | inl remainder =>
    subst remainder
    have bounds := tidy.node_bounds (n := block) (by simp)
    rw [divided.size]
    omega
  | inr other =>
    have bounds := tidy.node_bounds (tidy.other_ne other).1
    rw [divided.sizes n other]
    omega

/-- Of the listed blocks only the remainder touches the block. -/
theorem Divided.leftOf_none (divided : Divided h h' front back block total)
    (tidy : Tidy sys h live (front ++ block :: back)) (wide : 16 ≤ total) :
    h'.leftOf (front ++ (block + total) :: back) block = none := by
  cases found : h'.leftOf (front ++ (block + total) :: back) block with
  | none => rfl
  | some n =>
    obtain ⟨listed, ends⟩ := leftOf_some found
    cases List.mem_cons.mp (List.perm_middle.mem_iff.mp listed) with
    | inl remainder => omega
    | inr other =>
      obtain ⟨listed', different⟩ := tidy.other_ne other
      have apart := tidy.node_apart listed' (by simp) different
      rw [divided.sizes n other] at ends
      omega

/-- So `kufree` of the block puts it in the remainder's place. -/
theorem Divided.kufree_settles (divided : Divided h h' front back block total)
    (tidy : Tidy sys h live (front ++ block :: back)) (same : SameBreak h h') (wide : 16 ≤ total)
    (room : total + 8 ≤ h.word block) :
    Settles .spent (front ++ block :: back).length rounds (kufree sys rounds h' (block + 8))
      (takePlace sys (takenOver h' block total (block + total)) block (block + total)) := by
  have bounds := tidy.node_bounds (n := block) (by simp)
  have high := tidy.ledger.high
  have bounded := tidy.bounded
  have brk := same.brk
  have stop := same.blockEnd
  have size := divided.size
  have nodes := fun n member => divided.node_bounds tidy room (n := n) member
  have seen : Surveyed sys h' block total (front ++ (block + total) :: back) := by
    refine .below_end (by omega) (by omega) divided.header (by omega) (by omega) (by omega)
      fun n member => ?_
    have boundsN := nodes n member
    omega
  have settles : Settles .spent _ rounds (kufree sys rounds h' (block + 8)) _ :=
    kufree_settles_inside seen (divided.freeList tidy wide) (by omega) fun n member => by
      have boundsN := nodes n member
      omega
  have nonempty : front ++ (block + total) :: back ≠ [] := by simp
  have right : block + total ∈ front ++ (block + total) :: back := by simp
  simp only [mergePlan, if_neg nonempty, divided.leftOf_none tidy wide, decide_eq_true right]
    at settles
  rw [replaceRight_takes wide divided.header
    (fun a low top => accessible_inside (by omega) (by omega) (by omega)) (by omega)] at settles
  simpa only [List.length_append, List.length_cons] using settles

/-- There it has the remainder's `next` and, with its size added, the size it had. -/
theorem Divided.takePlace_joins (divided : Divided h h' front back block total)
    (tidy : Tidy sys h live (front ++ block :: back)) (same : SameBreak h h') (wide : 16 ≤ total)
    (room : total + 8 ≤ h.word block)
    (linked : h'.LinkedBack (front ++ (block + total) :: back) (block + total)) :
    ∃ k, takePlace sys (takenOver h' block total (block + total)) block (block + total) = .ok k ∧
      SameBreak h' k ∧ k.FreeList (front ++ block :: back) ∧
      ∀ n ∈ front ++ block :: back, k.word n = h.word n := by
  have bounds := tidy.node_bounds (n := block) (by simp)
  have high := tidy.ledger.high
  have bounded := tidy.bounded
  have limit := sys.limit_lt
  have base := sys.base_above
  have brk := same.brk
  have list := divided.freeList tidy wide
  have size := divided.size
  have apart : ∀ n ∈ front ++ back, n + 32 ≤ block ∨ block + h.word block + 16 ≤ n :=
    fun n member => tidy.others_apart member
  have word : ∀ a, a + 8 ≤ block ∨ block + 24 ≤ a →
      (takenOver h' block total (block + total)).word a = h'.word a := fun _ => takenOver_word
  have sizeT : (takenOver h' block total (block + total)).word block = h.word block := by
    rw [takenOver_size (by omega), size]
    omega
  have nextT : (takenOver h' block total (block + total)).word (block + 8) = h.word (block + 8) :=
    takenOver_next.trans divided.next
  have unmoved : SameBreak h' (takenOver h' block total (block + total)) := ⟨rfl, rfl, rfl, rfl⟩
  have head : (takenOver h' block total (block + total)).head = h'.head := rfl
  generalize takenOver h' block total (block + total) = g at word sizeT nextT unmoved head ⊢
  have brk' := unmoved.brk
  have access : ∀ a, sys.base ≤ a → a + 8 ≤ h.blockEnd → g.accessible sys a 8 = true :=
    fun a low top => accessible_inside low (by omega) (by omega)
  obtain ⟨k, placed⟩ := takePlace_ok list linked head (word _ (by omega))
    (access _ (by omega) (by omega)) (fun n inFront => by
      have boundsN := tidy.node_bounds (n := n) (List.mem_append_left _ inFront)
      exact access _ (by omega) (by omega)) block
  obtain ⟨same', relinked, frame⟩ := takePlace_moves list linked (fun _ => id)
    (fun n member m inFront => by
      by_cases same : n = m
      · exact Or.inl same
      · have fields := tidy.fields_apart (tidy.other_ne member).1
          (tidy.other_ne (List.mem_append_left back inFront)).1 same
        omega)
    head (word _ (by omega)) (fun n member => by
      have apartN := apart n member
      exact ⟨word _ (by omega), word _ (by omega)⟩)
    (by omega) placed
  have fields : ∀ a, block ≤ a → a + 8 ≤ block + 16 → k.word a = g.word a := by
    refine fun a low top => word_congr fun x first last => frame x fun n inFront => ?_
    have apartN := apart n (List.mem_append_left back inFront)
    omega
  refine ⟨k, placed, unmoved.trans same', ?_, fun n member => ?_⟩
  · have next : k.nextAt block = h.nextAt block := (fields _ (by omega) (by omega)).trans nextT
    refine relinked.freeList list (chain_cons.mpr ⟨rfl, by omega, ?_⟩)
    rw [next]
    exact relinked.back_chain (divided.back_chain tidy.chain.next_chain)
  · cases List.mem_cons.mp (List.perm_middle.mem_iff.mp member) with
    | inl same => rw [same, fields _ (by omega) (by omega), sizeT]
    | inr other => exact (relinked.sizes n other).trans (divided.sizes n other)

/-- The block and its remainder become one again. -/
theorem Divided.undone (divided : Divided h h' front back block total)
    (tidy : Tidy sys h live (front ++ block :: back)) (same : SameBreak h h') (wide : 16 ≤ total)
    (room : total + 8 ≤ h.word block)
    (linked : h'.LinkedBack (front ++ (block + total) :: back) (block + total)) :
    Restores sys h h' (block + 8) (front ++ block :: back).length := by
  obtain ⟨k, placed, same', list, sizes⟩ := divided.takePlace_joins tidy same wide room linked
  refine ⟨k, fun rounds => ?_, freeExtent_same tidy.chain list (List.Perm.refl _) sizes, ?_⟩
  · exact placed ▸ divided.kufree_settles tidy same wide room
  · simp only [top, (same.trans same').blockEnd]

/-! ### A whole listed block -/

theorem Removed.freeList (removed : Removed h h' front back block)
    (tidy : Tidy sys h live (front ++ block :: back)) : h'.FreeList (front ++ back) :=
  removed.toRelinked.freeList tidy.chain (removed.back_chain tidy.chain.next_chain)

/-- The three stores of a reuse are clear of the other nodes, whatever remains. -/
theorem stamped_others (tidy : Tidy sys h live (front ++ block :: back)) (wide : 16 ≤ total)
    (fits : total ≤ h.word block) (member : n ∈ front ++ back) :
    (stamped h block total).word n = h.word n ∧
      (stamped h block total).word (n + 8) = h.word (n + 8) := by
  have bounds := tidy.node_bounds (n := block) (by simp)
  have apart := tidy.others_apart member
  exact ⟨stamped_word wide (by omega), stamped_word wide (by omega)⟩

theorem reuseHead_removed (tidy : Tidy sys h live (block :: back)) (spent : h.word block = total)
    (ran : reuseHead sys (block + total) ((h.word block - total : Nat) : Int)
      (stamped h block total) = .ok h') : Removed h h' [] back block := by
  have shifted : Tidy sys h live ([] ++ block :: back) := tidy
  have bounds := tidy.node_bounds (n := block) (by simp)
  have high := tidy.ledger.high
  have limit := sys.limit_lt
  have first : h.head = block := tidy.chain.head_eq
  have next : (stamped h block total).word (block + 8) = h.word (block + 8) :=
    stamped_word (by omega) (by omega)
  have kept : ∀ n ∈ back, _ := fun n member =>
    stamped_others shifted (n := n) (by omega) (Nat.le_of_eq spent.symm) member
  have header : (stamped h block total).word block = total := stamped_header (by omega)
  have ran := ((reuseHead_spent_eq_ok (g := stamped h block total) first (by omega)).mp ran).2
  rw [next] at ran
  generalize stamped h block total = g at ran kept header
  rcases ran with ⟨last, rfl⟩ | ⟨more, -, rfl⟩
  · refine ⟨⟨?_, by simp, fun n member => ?_, fun n member => ?_⟩, ?_⟩
    · rw [if_pos first, last, setHead_head]
    · rw [setHead_word, (kept n member).2]
    · rw [setHead_word, (kept n member).1]
    · rw [setHead_word, header, spent]
  · cases back with
    | nil =>
      have last : h.word (block + 8) = 0 := last_word shifted.chain
      exact absurd last more
    | cons y ys =>
      have follows : h.word (block + 8) = y := next_word shifted.chain
      have behind := shifted.others_apart (n := y) (by simp)
      have apart : ∀ n ∈ y :: ys, n = y ∨ n + 32 ≤ y ∨ y + 32 ≤ n := by
        intro n member
        by_cases same : n = y
        · exact Or.inl same
        · exact Or.inr (tidy.fields_apart (List.mem_cons_of_mem _ member) (by simp) same)
      rw [follows]
      refine ⟨⟨?_, by simp, fun n member => ?_, fun n member => ?_⟩, ?_⟩
      · rw [if_pos first, follows, put_head, setHead_head]
      · have apartN := apart n member
        rw [word_put_apart (by omega), setHead_word, (kept n member).2]
      · have apartN := apart n member
        rw [word_put_apart (by omega), setHead_word, (kept n member).1]
      · rw [word_put_apart (by omega), setHead_word, header, spent]

theorem unlinkNext_removed (tidy : Tidy sys h live (front ++ p :: block :: back))
    (spent : h.word block = total)
    (ran : unlinkNext sys (block + total) ((h.word block - total : Nat) : Int)
      (stamped h block total) p = .ok h') : Removed h h' (front ++ [p]) back block := by
  have split : front ++ p :: block :: back = (front ++ [p]) ++ block :: back := by simp
  have shifted := split ▸ tidy
  have bounds := tidy.node_bounds (n := block) (by simp)
  have high := tidy.ledger.high
  have limit := sys.limit_lt
  cases back with
  | nil =>
    have aligned : total % 8 = 0 := by omega
    have fits : total ≤ h.word block := by omega
    have wide : 16 ≤ total := by omega
    have faults := unlinkNext_faults tidy wide aligned fits
    cases faults.symm.trans ran
  | cons y ys =>
    have follows : h.word (block + 8) = y := next_word shifted.chain
    have leads : h.word (p + 8) = block := next_word tidy.chain
    have kept : ∀ n ∈ (front ++ [p]) ++ y :: ys, _ := fun n member =>
      stamped_others shifted (n := n) (by omega) (Nat.le_of_eq spent.symm) member
    have next : (stamped h block total).word (block + 8) = y :=
      (stamped_word (by omega) (by omega)).trans follows
    have header : (stamped h block total).word block = total := stamped_header (by omega)
    have before := shifted.others_apart (n := p) (by simp)
    have behind := shifted.others_apart (n := y) (by simp)
    have boundsY := tidy.node_bounds (n := y) (by simp)
    have apart : ∀ m ∈ [p, y], ∀ n ∈ (front ++ [p]) ++ y :: ys,
        n = m ∨ n + 32 ≤ m ∨ m + 32 ≤ n := by
      intro m either n member
      by_cases same : n = m
      · exact Or.inl same
      · have listed : m ∈ front ++ p :: block :: y :: ys := by
          simp only [List.mem_cons, List.not_mem_nil, or_false] at either
          rcases either with rfl | rfl <;> simp
        rw [split] at listed
        exact Or.inr (shifted.fields_apart (shifted.other_ne member).1 listed same)
    have alone : p ∉ block :: y :: ys := (List.nodup_cons.mp tidy.chain.nodup.of_append_right).1
    have yp := (apart y (by simp) p (by simp)).resolve_left fun same => alone (by simp [same])
    have leads' := (kept p (by simp)).2.trans leads
    have head : (stamped h block total).head = h.head := rfl
    generalize stamped h block total = g at ran kept next header leads' head
    obtain ⟨-, -, -, rfl⟩ := (unlinkNext_spent_eq_ok leads' (by omega) (by rw [next]; omega)
      (by rw [next]; omega)).mp ran
    rw [next]
    refine ⟨⟨?_, fun n member => ?_, fun n member => ?_, fun n member => ?_⟩, ?_⟩
    · rw [if_neg tidy.chain.start_ne, put_head, put_head, head]
    · have member' := List.mem_append_left (y :: ys) member
      have apartP := apart p (by simp) n member'
      have apartY := apart y (by simp) n member'
      by_cases last : n = p
      · rw [last, word_put_same (by omega), if_pos leads, follows]
      · have otherwise := next_word_ne tidy.chain (split ▸ (shifted.other_ne member').1) last
        rw [word_put_apart (by omega), word_put_apart (by omega), (kept n member').2,
          if_neg otherwise]
    · have member' := List.mem_append_right (front ++ [p]) member
      have apartP := (apart p (by simp) n member').resolve_left fun same =>
        alone (same ▸ List.mem_cons_of_mem _ member)
      have apartY := apart y (by simp) n member'
      rw [word_put_apart (by omega), word_put_apart (by omega), (kept n member').2]
    · have apartP := apart p (by simp) n member
      have apartY := apart y (by simp) n member
      rw [word_put_apart (by omega), word_put_apart (by omega), (kept n member).1]
    · rw [word_put_apart (by omega), word_put_apart (by omega), header, spent]

theorem reuseBlock_removes (tidy : Tidy sys h live (front ++ block :: back)) (wide : 16 ≤ total)
    (spent : h.word block = total) (ran : reuseBlock sys rounds h block total = .ok h') :
    Removed h h' front back block := by
  obtain ⟨rfl, -, taken⟩ | ⟨front, p, rfl, -, taken⟩ :=
    reuseBlock_cases tidy wide (Nat.le_of_eq spent.symm) ran
  · exact reuseHead_removed tidy spent taken
  · have shape : (front ++ [p]) ++ block :: back = front ++ p :: block :: back := by simp
    exact unlinkNext_removed (shape ▸ tidy) spent taken

/-- The block, freed at once, touches no listed one and is put in front of the list. -/
theorem Removed.undone (removed : Removed h h' front back block)
    (tidy : Tidy sys h live (front ++ block :: back)) (same : SameBreak h h') :
    Restores sys h h' (block + 8) (front ++ block :: back).length := by
  have bounds := tidy.node_bounds (n := block) (by simp)
  have high := tidy.ledger.high
  have brk := same.brk
  have stop := same.blockEnd
  have list := removed.freeList tidy
  have header := removed.header
  have nodes : ∀ n ∈ front ++ back, sys.base ≤ n ∧ n + h.word n + 16 ≤ h.blockEnd ∧
      16 ≤ h.word n ∧ h'.word n = h.word n ∧
      (n + h.word n + 16 ≤ block ∨ block + h.word block + 16 ≤ n) := by
    intro n member
    obtain ⟨listed, different⟩ := tidy.other_ne member
    have boundsN := tidy.node_bounds listed
    exact ⟨by omega, by omega, by omega, removed.sizes n member,
      tidy.node_apart listed (by simp) different⟩
  have access : ∀ a, sys.base ≤ a → a + 8 ≤ h.blockEnd → h'.accessible sys a 8 = true :=
    fun a low top => accessible_inside low (by omega) (by omega)
  have noLeft : h'.leftOf (front ++ back) block = none := by
    refine List.find?_eq_none.mpr fun n member touches => ?_
    have boundsN := nodes n member
    have ends : n + h'.word n = block := of_decide_eq_true touches
    omega
  have noRight : block + h.word block ∉ front ++ back := by
    intro member
    have boundsN := nodes _ member
    omega
  have first : ∀ n ∈ (front ++ back).head?, n ∈ front ++ back := fun n => List.mem_of_mem_head?
  obtain ⟨k, ran, same', list', sizes, -⟩ := mergePlan_pushes list noLeft noRight
    (fun n member => by
      have boundsN := nodes n member
      omega)
    (fun n front => by
      have boundsN := nodes n (first n front)
      refine ⟨by omega, fun m member => ?_⟩
      by_cases same : m = n
      · exact Or.inl same
      · have fields := tidy.fields_apart (tidy.other_ne member).1
          (tidy.other_ne (first n front)).1 same
        omega)
    (access _ (by omega) (by omega))
    (fun n front => by
      have boundsN := nodes n (first n front)
      exact access _ (by omega) (by omega))
  have seen : Surveyed sys h' block (h.word block) (front ++ back) := by
    refine .below_end (by omega) (by omega) header (by omega) (by omega) (by omega) fun n member => ?_
    have boundsN := nodes n member
    omega
  refine ⟨k, fun rounds => ?_, freeExtent_same tidy.chain list' List.perm_middle.symm
    fun n member => ?_, ?_⟩
  · have settles : Settles .spent _ rounds (kufree sys rounds h' (block + 8)) _ :=
      kufree_settles_inside seen list (by omega) fun n member => by
        have boundsN := nodes n member
        omega
    rw [ran] at settles
    exact settles.weaken (by simp only [List.length_append, List.length_cons]; omega)
  · have member' := List.perm_middle.mem_iff.mp member
    rw [sizes n member']
    cases List.mem_cons.mp member' with
    | inl same => rw [same, header]
    | inr other => exact removed.sizes n other
  · simp only [top, (same.trans same').blockEnd]

/-! ### `kumalloc`, then `kufree` -/

/-- What was taken from the list goes back, whatever remained of it. -/
theorem reuse_undone (tidy : Tidy sys h live free) (wide : 16 ≤ total) (aligned : total % 8 = 0)
    (found : h.firstFit free total = some block)
    (ran : reuseBlock sys rounds h block total = .ok h') :
    Restores sys h h' (block + 8) free.length := by
  have fits : total ≤ h.word block := by
    have large := List.find?_some found
    simp only [decide_eq_true_eq] at large
    exact large
  have listed : block ∈ free := List.mem_of_find?_eq_some found
  have bounds := tidy.node_bounds listed
  obtain ⟨front, back, rfl⟩ := List.append_of_mem listed
  have same := reuseBlock_sameBreak ran
  by_cases spent : h.word block = total
  · exact (reuseBlock_removes tidy wide spent ran).undone tidy same
  · obtain ⟨divided, linked⟩ := reuseBlock_divides tidy wide (by omega) ran
    exact divided.undone tidy same wide (by omega) linked

/-- A request that is served is undone by freeing the block at once. -/
theorem kumalloc_undone (tidy : Tidy sys h live free) (positive : 0 < size)
    (fits : RequestFits size) (reusable : Reusable h free (exactTotal size))
    (granted : GrowthGranted sys h free (exactTotal size)) : Undoes sys h size := by
  obtain ⟨wide, aligned, small, -⟩ := exactTotal_bounds positive fits
  have limit := sys.limit_lt
  obtain ⟨p, h', returns, -⟩ := kumalloc_returns tidy positive fits reusable granted
  suffices undone : Restores sys h h' p free.length by
    obtain ⟨k, freed, same⟩ := undone
    exact ⟨p, h', k, free.length, fun rounds budget =>
      ⟨(returns rounds).reached budget, (freed rounds).reached budget⟩, same⟩
  have ran := (returns (free.length + 1)).reached (Nat.lt_succ_self _)
  have outcome := (kumalloc_settles tidy positive fits.1).returned ran
  cases found : h.firstFit free (exactTotal size) with
  | none =>
    simp only [found] at outcome
    have grown := growHeap_grown fits.2 tidy.ledger (granted found)
    obtain ⟨g, stored, last⟩ := bind_eq_ok.mp outcome
    simp only [setSize, store_eq_ok] at stored
    obtain ⟨-, rfl⟩ := stored
    cases last
    have within := grown.within
    have high := grown.ledger.high
    rw [add_header (by omega)]
    exact grown_undone tidy grown (by omega) small
  | some block =>
    simp only [found] at outcome
    obtain ⟨g, reused, last⟩ := bind_eq_ok.mp outcome
    cases last
    have bounds := tidy.node_bounds (List.mem_of_find?_eq_some found)
    have high := tidy.ledger.high
    rw [add_header (by omega)]
    exact reuse_undone tidy wide aligned found reused

/-- Free undoes malloc, after every clean run and for every request the system can serve,
exactly when the block the search takes is the first of the list or has a node behind it. -/
theorem clean_run_undoes (run : CleanRun sys s) (positive : 0 < size) (fits : RequestFits size)
    (granted : ∀ nodes, s.heap.FreeList nodes → GrowthGranted sys s.heap nodes (exactTotal size)) :
    Undoes sys s.heap size ↔
      ∀ nodes, s.heap.FreeList nodes → Reusable s.heap nodes (exactTotal size) := by
  obtain ⟨free, tidy⟩ := clean_run_tidy run
  constructor
  · rintro ⟨p, h, k, enough, returns, -⟩ nodes list
    by_contra stuck
    rw [← chain_unique tidy.chain list] at stuck
    have returned := (returns (enough + free.length + 1) (by omega)).1
    have faulted := (kumalloc_faults tidy positive fits stuck).reached
      (show free.length < enough + free.length + 1 by omega)
    cases faulted.symm.trans returned
  · exact fun reusable =>
      kumalloc_undone tidy positive fits (reusable free tidy.chain) (granted free tidy.chain)

/-- A block between two others on the list is used exactly. -/
theorem clean_run_undoes_exact : ∃ (s : State) (nodes : List Nat), s.heap.FreeList nodes ∧
    ¬ ReusesCleanly s.heap nodes (exactTotal 200) ∧ Undoes pagedSystem s.heap 200 := by
  have ends : (playScript pagedSystem Call.checkClean 64 freshState
      [.kumalloc 56, .kumalloc 56, .kumalloc 200, .kumalloc 56, .kumalloc 56, .kumalloc 56,
        .kufree 65544, .kufree 65672, .kufree 65944]).any (fun s =>
          (s.heap.listed 64 s.heap.head).any fun nodes =>
            Reusable s.heap nodes (exactTotal 200) ∧ ¬ ReusesCleanly s.heap nodes (exactTotal 200) ∧
              s.heap.firstFit nodes (exactTotal 200) ≠ none) = true := by
    decide +kernel
  obtain ⟨s, run, shape⟩ := clean_of_script ends
  obtain ⟨free, tidy⟩ := clean_run_tidy run
  have passed := fun nodes (list : s.heap.FreeList nodes) =>
    of_decide_eq_true (listed_any shape list)
  refine ⟨s, free, tidy.chain, (passed free tidy.chain).2.1, ?_⟩
  exact (clean_run_undoes run (by decide) (by decide)
    fun nodes list none => absurd none (passed nodes list).2.2).mpr
      fun nodes list => (passed nodes list).1

/-- A request that only the last of two listed blocks can serve: `kumalloc`
writes the `prev` of NULL. -/
theorem valid_run_stuck : ∃ s, ValidRun pagedSystem s ∧ RequestFits 100 ∧
    ∀ rounds p h, kumalloc pagedSystem rounds s.heap 100 ≠ .ok (p, h) := by
  have ends : (playScript pagedSystem Call.checkClean 64 freshState
      [.kumalloc 200, .kumalloc 8, .kumalloc 56, .kumalloc 8, .kufree 65544,
        .kufree 65768]).any (fun s => (s.heap.listed 64 s.heap.head).any fun nodes =>
          ¬ Reusable s.heap nodes (exactTotal 100)) = true := by
    decide +kernel
  obtain ⟨s, run, stuck⟩ := clean_of_script ends
  obtain ⟨free, tidy⟩ := clean_run_tidy run
  refine ⟨s, run.valid, by decide, fun rounds p h returns => ?_⟩
  have unusable := of_decide_eq_true (listed_any stuck tidy.chain)
  cases (kumalloc_faults tidy (by decide) (by decide) unusable).returned returns

end

end Comp304.Alloc
