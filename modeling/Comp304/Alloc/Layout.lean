import Comp304.Alloc.Accounting

/-! What a heap in order looks like. The live blocks and the listed blocks tile
the heap, no two listed blocks touch, and none is at the top. The nodes of the
list are inside free blocks, with a live block of at least sixteen bytes after
each of them, so the fields of different nodes never overlap. -/
namespace Comp304.Alloc
open Library.Budget Library.ByteMemory Library.Lp64 Library.Extents Library.LinkedChain

namespace Heap

/-- The eight-byte number at an address. -/
def word (h : Heap) (address : Nat) : Nat := loadBytes h.mem address 8

/-- The heap after an eight-byte store. -/
def put (h : Heap) (address value : Nat) : Heap :=
  { h with mem := storeBytes h.mem address value 8 }

/-- Where the used part of the heap ends. -/
def top (sys : System) (h : Heap) : Nat := if h.blockEnd = 0 then sys.base else h.blockEnd

section
variable {sys : System} {h h' : Heap}

@[simp] theorem put_head : (h.put a v).head = h.head := rfl
@[simp] theorem put_blockEnd : (h.put a v).blockEnd = h.blockEnd := rfl
@[simp] theorem put_availableMemory : (h.put a v).availableMemory = h.availableMemory := rfl
@[simp] theorem put_sbrkFailures : (h.put a v).sbrkFailures = h.sbrkFailures := rfl
@[simp] theorem put_accessible : (h.put a v).accessible sys c w = h.accessible sys c w := rfl

@[simp] theorem setHead_head : (h.setHead n).head = n := rfl
@[simp] theorem setHead_word : (h.setHead n).word a = h.word a := rfl
@[simp] theorem setHead_mem : (h.setHead n).mem = h.mem := rfl
@[simp] theorem setHead_availableMemory :
    (h.setHead n).availableMemory = h.availableMemory := rfl
@[simp] theorem setHead_sbrkFailures : (h.setHead n).sbrkFailures = h.sbrkFailures := rfl

theorem word_next (h : Heap) (node : Nat) : h.word (node + 8) = h.nextAt node := rfl

theorem word_lt (h : Heap) (address : Nat) : h.word address < 2 ^ 64 := loadBytes_lt h.mem address 8

theorem word_put_same (small : v < 2 ^ 64) : (h.put a v).word a = v :=
  (loadBytes_storeBytes_same h.mem a v 8).trans (Nat.mod_eq_of_lt small)

theorem word_put_apart (apart : c + 8 ≤ a ∨ a + 8 ≤ c) : (h.put a v).word c = h.word c :=
  loadBytes_storeBytes_apart h.mem v apart

theorem mem_put_outside (outside : x < a ∨ a + 8 ≤ x) : (h.put a v).mem x = h.mem x :=
  storeBytes_outside h.mem v outside

theorem word_congr (same : ∀ x, c ≤ x → x < c + 8 → h'.mem x = h.mem x) : h'.word c = h.word c :=
  loadBytes_congr fun i inside => same (c + i) (Nat.le_add_right _ _) (by omega)

/-- A load returns exactly when the address is mapped, and then the number there. -/
theorem load_eq_ok : h.load sys a = .ok v ↔ h.accessible sys a 8 = true ∧ v = h.word a := by
  unfold load
  split
  · next access => simp [access, word, eq_comm]
  · next denied => simp [denied]

theorem store_eq_ok : h.store sys a v = .ok h' ↔
    h.accessible sys a 8 = true ∧ h' = h.put a v := by
  unfold store
  split
  · next access => simp [access, put, eq_comm]
  · next denied => simp [denied]

theorem load_ok (access : h.accessible sys a 8 = true) : h.load sys a = .ok (h.word a) :=
  load_eq_ok.mpr ⟨access, rfl⟩

theorem store_ok (access : h.accessible sys a 8 = true) : h.store sys a v = .ok (h.put a v) :=
  store_eq_ok.mpr ⟨access, rfl⟩

theorem accessible_iff :
    h.accessible sys a w = true ↔ ∀ i < w, sys.mapped h.brk (a + i) = true := by
  simp [accessible]

/-- Everything between the base and the break is mapped. -/
theorem accessible_inside (low : sys.base ≤ a) (high : a + w ≤ h.brk) (limit : h.brk ≤ sys.limit) :
    h.accessible sys a w = true := by
  apply accessible_iff.mpr
  exact fun i inside => sys.heap_mapped _ _ (by omega) (by omega) limit

end

end Heap

open Heap

theorem add_header (high : n < 2 ^ 63) : add n blockSize = n + 8 :=
  add_of_lt (show n + 8 < 2 ^ 64 by omega)

theorem sub_header (high : n < 2 ^ 63) : sub (n + 8) blockSize = n := by
  rw [blockSize, sub_of_le (by omega) (by omega), Nat.add_sub_cancel]

/-- The heap in order, with these live blocks and this free list. -/
structure Tidy (sys : System) (h : Heap) (live : List Block) (free : List Nat) : Prop where
  chain : h.FreeList free
  headers : ∀ b ∈ live, h.word b.addr = b.total
  space : Space sys.base (h.top sys) (live.map Block.extent) (free.map h.extentAt)
  grain : ∀ e ∈ live.map Block.extent ++ free.map h.extentAt,
    e.lo % 8 = 0 ∧ e.len % 8 = 0 ∧ 16 ≤ e.len
  room : ∀ b ∈ live, b.requested + 8 ≤ b.total
  ledger : Ledger sys h
  untouched : h.blockEnd = 0 → h.brk = sys.base
  bounded : h.brk < sys.base + 2 ^ 31

/-- Every byte of these blocks, header and payload, is the same in both heaps. -/
def Untouched (live : List Block) (h h' : Heap) : Prop :=
  ∀ b ∈ live, ∀ x, b.extent.Holds x → h'.mem x = h.mem x

section
variable {sys : System} {h h' : Heap} {live : List Block} {free : List Nat} {b c : Block}

theorem Untouched.refl (live : List Block) (h : Heap) : Untouched live h h :=
  fun _ _ _ _ => rfl

theorem Untouched.trans {h'' : Heap} (left : Untouched live h h') (right : Untouched live h' h'') :
    Untouched live h h'' :=
  fun b member x inside => (right b member x inside).trans (left b member x inside)

/-- A store clear of all these blocks. -/
theorem Untouched.put (same : Untouched live h h')
    (clear : ∀ b ∈ live, b.addr + b.total ≤ a ∨ a + 8 ≤ b.addr) : Untouched live h (h'.put a v) := by
  intro b member x inside
  have apart := clear b member
  simp only [Extent.Holds, Block.extent, Extent.stop] at inside
  rw [mem_put_outside (by omega)]
  exact same b member x inside

/-- Nothing is written but the globals. -/
theorem Untouched.of_mem (same : Untouched live h h') (mem : h''.mem = h'.mem) :
    Untouched live h h'' :=
  fun b member x inside => mem ▸ same b member x inside

theorem Untouched.word (same : Untouched live h h') (member : b ∈ live) (wide : 8 ≤ b.total) :
    h'.word b.addr = h.word b.addr := by
  refine word_congr fun x low high => same b member x ?_
  simp only [Extent.Holds, Block.extent, Extent.stop]
  omega

namespace Tidy

theorem nonempty_top (tidy : Tidy sys h live free)
    (member : e ∈ live.map Block.extent ++ free.map h.extentAt) :
    h.blockEnd ≠ 0 ∧ h.top sys = h.blockEnd := by
  have inside := tidy.space.tiling.inside e member
  have positive := tidy.space.tiling.positive e member
  have used : h.blockEnd ≠ 0 := by
    intro unused
    simp only [top, if_pos unused, Extent.stop] at inside
    omega
  exact ⟨used, if_neg used⟩

/-- The heap ends at or below the break. -/
theorem end_le_break (tidy : Tidy sys h live free) : h.top sys ≤ h.brk := by
  unfold top
  split
  · next unused => exact Nat.le_of_eq (tidy.untouched unused).symm
  · next used => exact tidy.ledger.balance used ▸ Nat.le_add_right _ _

theorem top_aligned (tidy : Tidy sys h live free) : h.top sys % 8 = 0 := by
  have tiling := tidy.space.tiling
  by_cases above : sys.base < h.top sys
  · -- the extent that holds the last address ends at the top
    obtain ⟨e, member, holds⟩ := tiling.cover (h.top sys - 1) (by omega) (by omega)
    have inside := (tiling.inside e member).2
    have grain := tidy.grain e member
    simp only [Extent.Holds, Extent.stop] at holds inside
    omega
  · have ordered := tiling.ordered
    have base := sys.base_aligned
    omega

theorem block_bounds (tidy : Tidy sys h live free) (member : b ∈ live) :
    sys.base ≤ b.addr ∧ b.addr + b.total ≤ h.blockEnd ∧ h.blockEnd ≤ h.brk ∧
      b.addr % 8 = 0 ∧ b.total % 8 = 0 ∧ 16 ≤ b.total := by
  have inTiles : b.extent ∈ live.map Block.extent ++ free.map h.extentAt :=
    List.mem_append_left _ (List.mem_map_of_mem member)
  have inside := tidy.space.tiling.inside _ inTiles
  have grain := tidy.grain _ inTiles
  obtain ⟨_, top⟩ := tidy.nonempty_top inTiles
  have below := tidy.end_le_break
  rw [top] at inside below
  exact ⟨inside.1, inside.2, below, grain.1, grain.2.1, grain.2.2⟩

private theorem node_tile (h : Heap) (live : List Block) (member : n ∈ free) :
    (⟨n, h.word n⟩ : Extent) ∈ live.map Block.extent ++ free.map h.extentAt :=
  List.mem_append_right _ (List.mem_map.mpr ⟨n, member, rfl⟩)

/-- After every listed block comes a live one, of at least sixteen bytes. -/
theorem node_bounds (tidy : Tidy sys h live free) (member : n ∈ free) :
    sys.base ≤ n ∧ n + h.word n + 16 ≤ h.blockEnd ∧ h.blockEnd ≤ h.brk ∧
      n % 8 = 0 ∧ h.word n % 8 = 0 ∧ 16 ≤ h.word n := by
  have inTiles := node_tile h live member
  have inside := tidy.space.tiling.inside _ inTiles
  have grain := tidy.grain _ inTiles
  obtain ⟨_, top⟩ := tidy.nonempty_top inTiles
  have below := tidy.end_le_break
  have trimmed := tidy.space.trimmed _ (List.mem_map.mpr ⟨n, member, rfl⟩)
  simp only [extentAt, Extent.stop, top] at inside trimmed below
  obtain ⟨f, inTiles', start⟩ := tidy.space.tiling.follower inTiles
    (by simp only [Extent.stop, top]; simp only [sizeAt] at trimmed; simp only [word] at *; omega)
  have inside' := (tidy.space.tiling.inside f inTiles').2
  have grain' := (tidy.grain f inTiles').2.2
  simp only [Extent.stop, top] at inside' start
  exact ⟨inside.1, by omega, below, grain.1, grain.2.1, grain.2.2⟩

theorem node_apart (tidy : Tidy sys h live free) (memberN : n ∈ free) (memberM : m ∈ free)
    (different : n ≠ m) : n + h.word n + 16 ≤ m ∨ m + h.word m + 16 ≤ n := by
  have tiling := tidy.space.tiling
  have inTilesN := node_tile h live memberN
  have inTilesM := node_tile h live memberM
  have gap : ∀ {p q}, p ∈ free → q ∈ free → p + h.word p ≤ q → p + h.word p + 16 ≤ q := by
    intro p q memberP memberQ order
    have inTilesP := node_tile h live memberP
    have inTilesQ := node_tile h live memberQ
    have separated := tidy.space.separated _ (List.mem_map.mpr ⟨p, memberP, rfl⟩) _
      (List.mem_map.mpr ⟨q, memberQ, rfl⟩)
    have bounds := tidy.node_bounds memberP
    obtain ⟨_, top⟩ := tidy.nonempty_top inTilesP
    obtain ⟨f, inTilesF, start⟩ := tiling.follower inTilesP
      (by simp only [Extent.stop, top]; omega)
    have grain := (tidy.grain f inTilesF).2.2
    have positive := tiling.positive _ inTilesQ
    -- the extent after `p` is not `q`, which does not touch `p`
    have other : f ≠ ⟨q, h.word q⟩ := by
      rintro rfl
      exact separated start.symm
    have apart := tiling.order inTilesF inTilesQ other
    simp only [Extent.stop] at apart start positive
    omega
  have apart := tiling.order inTilesN inTilesM (fun same => different (congrArg Extent.lo same))
  exact apart.imp (gap memberN memberM) (gap memberM memberN)

/-- The fields of different nodes do not overlap, even in the smallest blocks. -/
theorem fields_apart (tidy : Tidy sys h live free) (memberN : n ∈ free) (memberM : m ∈ free)
    (different : n ≠ m) : n + 32 ≤ m ∨ m + 32 ≤ n := by
  have apart := tidy.node_apart memberN memberM different
  have sizeN := tidy.node_bounds memberN
  have sizeM := tidy.node_bounds memberM
  omega

theorem other_ne (tidy : Tidy sys h live (front ++ m :: back)) (member : n ∈ front ++ back) :
    n ∈ front ++ m :: back ∧ n ≠ m := by
  have distinct := List.perm_middle.nodup_iff.mp tidy.chain.nodup
  exact ⟨List.perm_middle.mem_iff.mpr (List.mem_cons_of_mem _ member), fun same =>
    (List.nodup_cons.mp distinct).1 (same ▸ member)⟩

/-- The other nodes of the list are clear of a listed block and of what follows it. -/
theorem others_apart (tidy : Tidy sys h live (front ++ m :: back)) (member : n ∈ front ++ back) :
    n + 32 ≤ m ∨ m + h.word m + 16 ≤ n := by
  obtain ⟨listed, different⟩ := tidy.other_ne member
  have bounds := tidy.node_bounds listed
  have apart := tidy.node_apart listed (by simp) different
  omega

theorem block_apart_node (tidy : Tidy sys h live free) (member : b ∈ live) (listed : n ∈ free) :
    b.addr + b.total ≤ n ∨ n + h.word n ≤ b.addr := by
  have inUsed : b.extent ∈ live.map Block.extent := List.mem_map_of_mem member
  have inFree : (⟨n, h.word n⟩ : Extent) ∈ free.map h.extentAt :=
    List.mem_map.mpr ⟨n, listed, rfl⟩
  exact (Extent.apart_iff (tidy.space.tiling.positive _ (List.mem_append_left _ inUsed))
    (tidy.space.tiling.positive _ (List.mem_append_right _ inFree))).mp
    (tidy.space.used_apart_free inUsed inFree)

theorem block_apart_block (tidy : Tidy sys h (b :: live) free) (member : c ∈ live) :
    b.addr + b.total ≤ c.addr ∨ c.addr + c.total ≤ b.addr := by
  have tiling := tidy.space.tiling
  have inTiles : c.extent ∈ live.map Block.extent ++ free.map h.extentAt :=
    List.mem_append_left _ (List.mem_map_of_mem member)
  exact (Extent.apart_iff (tiling.positive b.extent (by simp))
    (tiling.positive _ (List.mem_append_right [b.extent] inTiles))).mp
    (tiling.head_apart inTiles)

/-- The order in which the live blocks are told does not matter. -/
theorem perm (same : live.Perm live') (tidy : Tidy sys h live free) : Tidy sys h live' free where
  chain := tidy.chain
  headers b member := tidy.headers b (same.mem_iff.mpr member)
  space := tidy.space.perm (same.map _) (List.Perm.refl _)
  grain e member := tidy.grain e (((same.map _).append_right _).mem_iff.mpr member)
  room b member := tidy.room b (same.mem_iff.mpr member)
  ledger := tidy.ledger
  untouched := tidy.untouched
  bounded := tidy.bounded

/-- The freed block is the only live one with its pointer. -/
theorem live_perm (tidy : Tidy sys h live free) (member : b ∈ live) :
    live.Perm (b :: live.filter fun c => c.ptr ≠ b.ptr) := by
  obtain ⟨front, back, rfl⟩ := List.append_of_mem member
  have shifted := tidy.perm List.perm_middle
  have others : ∀ c ∈ front ++ back, c.ptr ≠ b.ptr := by
    intro c inRest same
    have apart := shifted.block_apart_block inRest
    have bounds := shifted.block_bounds (b := b) (by simp)
    have bounds' := shifted.block_bounds (b := c) (List.mem_cons_of_mem _ inRest)
    simp only [Block.ptr] at same
    omega
  have kept : (front ++ b :: back).filter (fun c => c.ptr ≠ b.ptr) = front ++ back := by
    rw [List.filter_append, List.filter_cons_of_neg (by simp), ← List.filter_append]
    exact List.filter_eq_self.mpr fun c inRest => by simpa using others c inRest
  rw [kept]
  exact List.perm_middle

theorem live_unique (tidy : Tidy sys h live free) (used : b ∈ live) (used' : c ∈ live)
    (same : c.ptr = b.ptr) : c = b := by
  refine (List.mem_cons.mp ((tidy.live_perm used).mem_iff.mp used')).resolve_right fun other => ?_
  exact absurd same (of_decide_eq_true (List.mem_filter.mp other).2)

/-- Order is kept by changes that reach neither a header nor the first two fields
of a node. -/
theorem frame {mem : Memory} (tidy : Tidy sys h live free)
    (headers : ∀ b ∈ live, ∀ x, b.addr ≤ x → x < b.addr + 8 → mem x = h.mem x)
    (fields : ∀ n ∈ free, ∀ x, n ≤ x → x < n + 16 → mem x = h.mem x) :
    Tidy sys { h with mem := mem } live free := by
  have sizes : ∀ n ∈ free, ({ h with mem := mem } : Heap).word n = h.word n := fun n member =>
    word_congr fun x low high => fields n member x low (by omega)
  have extents : free.map ({ h with mem := mem } : Heap).extentAt = free.map h.extentAt :=
    List.map_congr_left fun n member => congrArg (Extent.mk n) (sizes n member)
  refine ⟨chain_congr ?_ tidy.chain, ?_, ?_, ?_, tidy.room,
    (mem_sameBreak h mem).ledger tidy.ledger, tidy.untouched, tidy.bounded⟩
  · intro n member
    have next : ({ h with mem := mem } : Heap).word (n + 8) = h.word (n + 8) :=
      word_congr fun x low high => fields n member x (by omega) (by omega)
    exact next
  · intro b member
    rw [← tidy.headers b member]
    exact word_congr fun x low high => headers b member x low high
  · rw [extents]
    exact tidy.space
  · rw [extents]
    exact tidy.grain

/-- A heap is in order again after blocks changed hands below the same break. -/
theorem restock (tidy : Tidy sys h live free) (same : SameBreak h h') (list : h'.FreeList free')
    (space : Space sys.base (h.top sys) (live'.map Block.extent) extents)
    (listed : (free'.map h'.extentAt).Perm extents)
    (headers : ∀ b ∈ live', h'.word b.addr = b.total)
    (grain : ∀ e ∈ live'.map Block.extent ++ extents, e.lo % 8 = 0 ∧ e.len % 8 = 0 ∧ 16 ≤ e.len)
    (room : ∀ b ∈ live', b.requested + 8 ≤ b.total) : Tidy sys h' live' free' where
  chain := list
  headers := headers
  space := by
    have top : h'.top sys = h.top sys := by simp only [top, same.blockEnd]
    rw [top]
    exact space.perm (List.Perm.refl _) listed.symm
  grain e member := grain e ((listed.append_left _).mem_iff.mp member)
  room := room
  ledger := same.ledger tidy.ledger
  untouched unused := same.brk ▸ tidy.untouched (same.blockEnd ▸ unused)
  bounded := same.brk ▸ tidy.bounded

/-- The two fields every node has are mapped. -/
theorem node_accessible (tidy : Tidy sys h live free) (member : n ∈ free) :
    h.accessible sys n 8 = true ∧ h.accessible sys (n + 8) 8 = true := by
  have bounds := tidy.node_bounds member
  have limit := tidy.ledger.high
  exact ⟨accessible_inside bounds.1 (by omega) limit,
    accessible_inside (by omega) (by omega) limit⟩

/-- So is the third, in the node or behind it. -/
theorem prev_accessible (tidy : Tidy sys h live free) (member : n ∈ free) :
    h.accessible sys (n + 16) 8 = true := by
  have bounds := tidy.node_bounds member
  exact accessible_inside (by omega) (by omega) tidy.ledger.high

theorem header_accessible (tidy : Tidy sys h live free) (member : b ∈ live) :
    h.accessible sys b.addr 8 = true := by
  have bounds := tidy.block_bounds member
  exact accessible_inside bounds.1 (by omega) tidy.ledger.high

end Tidy

/-- One node of the list has given its place to another: every link to `old` is
now a link to `new`, and the nodes in front and behind are otherwise as before. -/
structure Relinked (h h' : Heap) (front back : List Nat) (old new : Nat) : Prop where
  head : h'.head = if h.head = old then new else h.head
  before : ∀ n ∈ front, h'.word (n + 8) = if h.word (n + 8) = old then new else h.word (n + 8)
  after : ∀ n ∈ back, h'.word (n + 8) = h.word (n + 8)
  sizes : ∀ n ∈ front ++ back, h'.word n = h.word n

namespace Relinked

theorem freeList (relinked : Relinked h h' front back old new)
    (list : h.FreeList (front ++ old :: rest)) (tail : Chain 0 h'.nextAt new rest') :
    h'.FreeList (front ++ rest') := Chain.redirect list relinked.head relinked.before tail

theorem back_chain (relinked : Relinked h h' front back old new)
    (chain : Chain 0 h.nextAt node back) : Chain 0 h'.nextAt node back :=
  chain_congr relinked.after chain

/-- The list extents, the one in the middle first. -/
theorem extents (relinked : Relinked h h' front back old new) (node : Nat) :
    ((front ++ node :: back).map h'.extentAt).Perm
      (⟨node, h'.word node⟩ :: (front ++ back).map h.extentAt) := by
  refine (List.perm_middle.map _).trans ?_
  have others : (front ++ back).map h'.extentAt = (front ++ back).map h.extentAt :=
    List.map_congr_left fun n member => congrArg (Extent.mk n) (relinked.sizes n member)
  rw [List.map_cons, others]
  exact List.Perm.refl _

end Relinked

/-- The `next` of a node inside the list. -/
theorem next_word (chain : Chain 0 h.nextAt start (front ++ n :: m :: back)) :
    h.word (n + 8) = m := by
  have next : h.nextAt n = m := chain.next_eq
  exact next

/-- The `next` of the last node. -/
theorem last_word (chain : Chain 0 h.nextAt start (front ++ [n])) : h.word (n + 8) = 0 := by
  have next : h.nextAt n = 0 := chain.next_last
  exact next

/-- Only the node in front of it has a node of the list as its `next`. -/
theorem next_word_ne (chain : Chain 0 h.nextAt start (front ++ p :: node :: back))
    (member : n ∈ front ++ p :: node :: back) (other : n ≠ p) : h.word (n + 8) ≠ node := by
  intro leads
  have next : h.nextAt n = node := leads
  exact other (chain.before_unique member next)

/-- The extents of a list, the one in the middle first. -/
theorem extents_middle (h : Heap) (front back : List Nat) (node : Nat) :
    ((front ++ node :: back).map h.extentAt).Perm
      (⟨node, h.word node⟩ :: (front ++ back).map h.extentAt) :=
  List.perm_middle.map _

end

end Comp304.Alloc
