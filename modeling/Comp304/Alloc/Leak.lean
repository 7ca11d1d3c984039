import Comp304.Alloc.Contract
import Comp304.Alloc.Realloc

/-! Resizing in runs that keep the heap in order. A block that `kurealloc` moves
is copied and not freed: it is no longer the client's, and it never gets on the
free list. Such leaked blocks are tracked next to the live ones. -/
namespace Comp304.Alloc
open Library.Budget Library.ByteMemory Library.Lp64 Library.Extents Library.LinkedChain Heap

/-- The call of `kufree` or `kumalloc` inside a resize, if there is one, is clean. -/
structure ResizesCleanly (h : Heap) (nodes : List Nat) (b : Block) (size : Nat) : Prop where
  freed : size = 0 → FreesCleanly h nodes b.addr b.total
  moved : b.total < size → ReusesCleanly h nodes (exactTotal (exactTotal size))

instance (h : Heap) (nodes : List Nat) (b : Block) (size : Nat) :
    Decidable (ResizesCleanly h nodes b size) :=
  decidable_of_iff ((size = 0 → FreesCleanly h nodes b.addr b.total) ∧
      (b.total < size → ReusesCleanly h nodes (exactTotal (exactTotal size))))
    ⟨fun ⟨freed, moved⟩ => ⟨freed, moved⟩, fun ⟨freed, moved⟩ => ⟨freed, moved⟩⟩

/-- A call that keeps the heap in order; for a resize in place the client must
also get the bytes it asked for. -/
def Call.TameOn (s : State) (nodes : List Nat) : Call → Prop
  | .kurealloc ptr size =>
    (ptr = 0 → 0 < size → ReusesCleanly s.heap nodes (exactTotal size)) ∧
      ∀ b ∈ s.live, b.ptr = ptr → ResizesCleanly s.heap nodes b size ∧
        (0 < size → size ≤ b.total → size + 8 ≤ b.total)
  | call => call.CleanOn s nodes

instance (s : State) (nodes : List Nat) : (call : Call) → Decidable (call.TameOn s nodes)
  | .kumalloc size => inferInstanceAs (Decidable ((Call.kumalloc size).CleanOn s nodes))
  | .kucalloc nmemb size => inferInstanceAs (Decidable ((Call.kucalloc nmemb size).CleanOn s nodes))
  | .kufree ptr => inferInstanceAs (Decidable ((Call.kufree ptr).CleanOn s nodes))
  | .kurealloc _ _ => inferInstanceAs (Decidable (_ ∧ ∀ b ∈ s.live, _ → _ ∧ _))

def Call.Tame (s : State) (call : Call) : Prop :=
  ∀ nodes, s.heap.FreeList nodes → call.TameOn s nodes

/-- The call moves no block: a resize is to nothing or to what the block has. -/
def Call.Stays (s : State) : Call → Prop
  | .kurealloc ptr size => ∀ b ∈ s.live, b.ptr = ptr → size = 0 ∨ size ≤ b.total
  | _ => True

instance (s : State) : (call : Call) → Decidable (call.Stays s)
  | .kumalloc _ => isTrue trivial
  | .kucalloc _ _ => isTrue trivial
  | .kufree _ => isTrue trivial
  | .kurealloc _ _ => inferInstanceAs (Decidable (∀ b ∈ s.live, _ → _))

/-- A run of tame calls of all four functions. -/
abbrev TameRun (sys : System) : State → Prop := Run sys fun s call => call.Tame s

/-- A run of tame calls that move no block. -/
abbrev StayingRun (sys : System) : State → Prop :=
  Run sys fun s call => call.Tame s ∧ call.Stays s

/-- Every byte the block had is on the free list, above the end of the heap, or in
the block at the new pointer. -/
def Released (h : Heap) (b : Block) (r : Nat) : Prop :=
  ∀ x, b.extent.Holds x → (∃ n, h.OnFreeList n ∧ (h.extentAt n).Holds x) ∨ h.blockEnd ≤ x ∨
    r ≠ 0 ∧ (h.extentAt (r - 8)).Holds x

section
variable {sys : System} {s s' : State} {h h' : Heap} {live leaked : List Block} {free : List Nat}
variable {b c : Block} {call : Call}

theorem CleanRun.tame (run : CleanRun sys s) : TameRun sys s := by
  refine run.mono fun s call clean nodes list => ?_
  have holds := clean.2 nodes list
  cases call with
  | kurealloc ptr size => exact clean.1.elim
  | _ => exact holds

/-! ### Leaked blocks -/

theorem Tidy.leaked_apart (tidy : Tidy sys h (live ++ leaked) free) (used : b ∈ live)
    (lost : c ∈ leaked) : c.ptr ≠ b.ptr := by
  intro same
  have apart : (live ++ leaked).Pairwise fun b c => b.extent.Apart c.extent :=
    List.pairwise_map.mp (List.pairwise_append.mp tidy.space.tiling.apart).1
  have bounds := tidy.block_bounds (List.mem_append_left leaked used)
  have bounds' := tidy.block_bounds (List.mem_append_right live lost)
  have both := (List.pairwise_append.mp apart).2.2 b used c lost
  have addr : c.addr = b.addr := Nat.add_right_cancel same
  refine both b.addr ⟨Nat.le_refl _, ?_⟩ ⟨Nat.le_of_eq addr, ?_⟩ <;>
    simp only [Block.extent, Extent.stop] <;> omega

theorem Tidy.leaked_kept (tidy : Tidy sys h (live ++ leaked) free) (used : b ∈ live) :
    (live ++ leaked).filter (fun c => c.ptr ≠ b.ptr) =
      live.filter (fun c => c.ptr ≠ b.ptr) ++ leaked := by
  rw [List.filter_append]
  congr 1
  exact List.filter_eq_self.mpr fun c lost => decide_eq_true (tidy.leaked_apart used lost)

theorem handOut_append (live leaked : List Block) (r requested : Nat) (h : Heap) :
    handOut (live ++ leaked) r requested h = handOut live r requested h ++ leaked := by
  unfold handOut
  split <;> rfl

/-- A clean call that is no resize treats leaked blocks as if they were live. -/
theorem plain_step (tidy : Tidy sys s.heap (s.live ++ leaked) free) (plain : call.Plain)
    (clean : call.CleanOn s free) (step : Step sys s call s') :
    ∃ free', Tidy sys s'.heap (s'.live ++ leaked) free' := by
  have wider : Step sys ⟨s.heap, s.live ++ leaked⟩ call ⟨s'.heap, s'.live ++ leaked⟩ := by
    obtain ⟨rounds, result, ran, tracked⟩ := step.returns
    refine ⟨?_, step.noWrap, ⟨rounds, result, ran, ?_⟩, step.granted, step.bounded⟩
    · have legal := step.legal
      cases call with
      | kufree ptr => exact legal.imp fun b holds => ⟨List.mem_append_left _ holds.1, holds.2⟩
      | kurealloc ptr size => exact plain.elim
      | _ => trivial
    · have legal := step.legal
      simp only [tracked]
      cases call with
      | kumalloc size => exact (handOut_append ..).symm
      | kucalloc nmemb size => exact (handOut_append ..).symm
      | kufree ptr =>
        obtain ⟨b, used, rfl⟩ := legal
        exact (tidy.leaked_kept used).symm
      | kurealloc ptr size => exact plain.elim
  have clean' : call.CleanOn ⟨s.heap, s.live ++ leaked⟩ free := by
    cases call with
    | kufree ptr =>
      obtain ⟨b, used, rfl⟩ := step.legal
      intro c member same
      cases List.mem_append.mp member with
      | inl used' => exact clean c used' same
      | inr lost => exact absurd same (tidy.leaked_apart used lost)
    | _ => exact clean
  obtain ⟨free', tidy', -⟩ := step_tidy (s := ⟨s.heap, s.live ++ leaked⟩) tidy plain clean' wider
  exact ⟨free', tidy'⟩

/-! ### One resize -/

theorem Tidy.issued (tidy : Tidy sys h live free) (used : b ∈ live) : Issued b.ptr := by
  have bounds := tidy.block_bounds used
  have base := sys.base_above
  have limit := sys.limit_lt
  have high := tidy.ledger.high
  exact ⟨b.addr, rfl, by omega, by omega⟩

/-- A copy into the payload of a live block keeps the heap in order. -/
theorem memcpy_tidy (tidy : Tidy sys h (⟨block, total, requested⟩ :: live) free)
    (ran : memcpy sys h (block + 8) source width = .ok h') (room : width + 8 ≤ total) :
    Tidy sys h' (⟨block, total, requested⟩ :: live) free := by
  unfold memcpy at ran
  split at ran
  · cases ran
    refine (tidy.write_payload fun x outside => ?_).1
    exact copy_outside _ _ (by omega)
  · cases ran

/-- What the client asked for may change as long as the block holds it. -/
theorem Tidy.rerequest (tidy : Tidy sys h (b :: live) free) (room : requested + 8 ≤ b.total) :
    Tidy sys h (⟨b.addr, b.total, requested⟩ :: live) free where
  chain := tidy.chain
  headers := by
    have headers := tidy.headers
    simp only [List.forall_mem_cons] at headers ⊢
    exact headers
  space := tidy.space
  grain := tidy.grain
  room := by
    have rooms := tidy.room
    simp only [List.forall_mem_cons] at rooms ⊢
    exact ⟨room, rooms.2⟩
  ledger := tidy.ledger
  untouched := tidy.untouched
  bounded := tidy.bounded

/-- What a clean resize of a live block does: free it, leave it, or copy it to a
new block and leave it too. -/
theorem resize_tidy (tidy : Tidy sys h live free) (used : b ∈ live)
    (fits : (Call.kurealloc b.ptr size).NoWrap) (clean : ResizesCleanly h free b size)
    (ran : kurealloc sys rounds h b.ptr size = .ok (r, h'))
    (quiet : h'.sbrkFailures = h.sbrkFailures) (bounded : h'.brk < sys.base + 2 ^ 31) :
    (size = 0 ∧ r = 0 ∧ ∃ free', Tidy sys h' (live.filter fun c => c.ptr ≠ b.ptr) free') ∨
    (0 < size ∧ size ≤ b.total ∧ r = b.ptr ∧ h' = h) ∨
    (b.total < size ∧ ∃ block free', r = block + 8 ∧
      Tidy sys h' (⟨block, exactTotal (exactTotal size), size⟩ :: live) free' ∧
      ∀ i, i + 8 < b.total → h'.mem (r + i) = h.mem (b.ptr + i)) := by
  have header := tidy.headers b used
  by_cases zero : size = 0
  · subst zero
    have nonnull : b.ptr ≠ 0 := by simp [Block.ptr]
    rw [kurealloc, if_pos ⟨rfl, nonnull⟩] at ran
    obtain ⟨final, freed, last⟩ := bind_eq_ok.mp ran
    cases last
    obtain ⟨free', tidy', -⟩ := kufree_tidy tidy used (clean.freed rfl) freed quiet
    exact Or.inl ⟨rfl, rfl, free', tidy'⟩
  · have positive : 0 < size := Nat.pos_of_ne_zero zero
    refine Or.inr ?_
    cases kurealloc_cases positive (tidy.issued used) fits.1 ran with
    | inl place =>
      obtain ⟨enough, same, kept⟩ := place
      exact Or.inl ⟨positive, header ▸ enough, same, kept⟩
    | inr moved =>
      obtain ⟨short, middle, allocated, copied⟩ := moved
      rw [copySource_moved short, header] at copied
      rw [header] at short
      replace copied : memcpy sys middle r b.ptr b.total = .ok h' := copied
      have total : size + 8 ≤ exactTotal size := by
        unfold exactTotal
        omega
      have positive' : 0 < exactTotal size := by omega
      have room := (exactTotal_bounds positive' fits.2).2.2.2
      have same : h'.sbrkFailures = middle.sbrkFailures ∧ h'.brk = middle.brk := by
        obtain ⟨mem, rfl⟩ := memcpy_mem copied
        exact ⟨rfl, rfl⟩
      have holds : size + 8 ≤ exactTotal (exactTotal size) := by omega
      obtain ⟨block, free', rfl, tidy', untouched⟩ := kumalloc_tidy tidy positive' fits.2
        (clean.moved short) holds allocated (same.1 ▸ quiet) (same.2 ▸ bounded)
      refine Or.inr ⟨short, block, free', rfl, memcpy_tidy tidy' copied (by omega), ?_⟩
      intro i inside
      have old : middle.mem (b.ptr + i) = h.mem (b.ptr + i) := by
        refine untouched b used _ ?_
        simp only [Extent.Holds, Block.extent, Extent.stop, Block.ptr]
        omega
      exact (memcpy_data copied (by omega)).trans old

/-- One tame call. Only a resize that moves a block leaks one. -/
theorem tame_step (tidy : Tidy sys s.heap (s.live ++ leaked) free) (tame : call.TameOn s free)
    (step : Step sys s call s') :
    ∃ leaked' free', Tidy sys s'.heap (s'.live ++ leaked') free' ∧
      (call.Stays s → leaked' = leaked) := by
  by_cases plain : call.Plain
  · have clean : call.CleanOn s free := by
      cases call with
      | kurealloc ptr size => exact plain.elim
      | _ => exact tame
    obtain ⟨free', tidy'⟩ := plain_step tidy plain clean step
    exact ⟨leaked, free', tidy', fun _ => rfl⟩
  · cases call with
    | kurealloc ptr size =>
      obtain ⟨rounds, r, ran, tracked⟩ := step.returns
      have ran : kurealloc sys rounds s.heap ptr size = .ok (r, s'.heap) := ran
      by_cases null : ptr = 0
      · -- a resize of NULL is a request
        subst null
        have request : Step sys s (.kumalloc size) s' := by
          refine ⟨trivial, step.noWrap.2.le ?_, ⟨rounds, r, ?_, ?_⟩, step.granted, step.bounded⟩
          · unfold exactTotal
            omega
          · have same : kumalloc sys rounds s.heap size = .ok (r, s'.heap) := by
              simpa [kurealloc] using ran
            exact same
          · have all : s.live.filter (fun b => b.ptr ≠ 0) = s.live :=
              List.filter_eq_self.mpr fun b _ => by simp [Block.ptr]
            simp only [track, all] at tracked
            exact tracked
        have plain' : (Call.kumalloc size).Plain := trivial
        obtain ⟨free', tidy'⟩ := plain_step tidy plain' (tame.1 rfl) request
        exact ⟨leaked, free', tidy', fun _ => rfl⟩
      · obtain ⟨b, used, rfl⟩ := step.legal.resolve_left null
        obtain ⟨clean, fitting⟩ := tame.2 b used rfl
        have used' : b ∈ s.live ++ leaked := List.mem_append_left _ used
        have rest := tidy.live_perm used'
        rw [tidy.leaked_kept used] at rest
        simp only [track] at tracked
        rcases resize_tidy tidy used' step.noWrap clean ran step.granted step.bounded with
          ⟨zero, rfl, free', tidy'⟩ | ⟨positive, enough, rfl, same⟩ | ⟨short, block, free', rfl, tidy', -⟩
        · rw [tidy.leaked_kept used] at tidy'
          simp only [handOut, if_pos] at tracked
          exact ⟨leaked, free', tracked ▸ tidy', fun _ => rfl⟩
        · have header : s'.heap.word b.addr = b.total := same ▸ tidy.headers b used'
          rw [Block.ptr, handOut_eq header] at tracked
          rw [tracked, same]
          exact ⟨leaked, free, (tidy.perm rest).rerequest (fitting positive enough), fun _ => rfl⟩
        · have header := tidy'.headers _ List.mem_cons_self
          rw [handOut_eq header] at tracked
          refine ⟨b :: leaked, free', ?_, fun stays => ?_⟩
          · rw [tracked]
            refine tidy'.perm (List.Perm.cons _ (rest.trans ?_))
            exact List.perm_middle.symm
          · cases stays b used rfl with
            | inl zero => exact absurd zero (by omega)
            | inr enough => exact absurd enough (Nat.not_le_of_lt short)
    | _ => exact absurd trivial plain

/-- What the client writes reaches no leaked block either. -/
theorem client_leaked {mem : Memory} (tidy : Tidy sys s.heap (s.live ++ leaked) free)
    (writes : ClientWrites sys s mem) :
    Tidy sys { s.heap with mem := mem } (s.live ++ leaked) free :=
  client_tidy (s := ⟨s.heap, s.live ++ leaked⟩) tidy fun address low high outside =>
    writes address low high fun b used => outside b (List.mem_append_left _ used)

/-- The heap is in order in every state of a tame run, the leaked blocks counted
in. -/
theorem tame_run_tidy (run : TameRun sys s) :
    ∃ leaked free, Tidy sys s.heap (s.live ++ leaked) free := by
  induction run with
  | start mem => exact ⟨[], [], Tidy.initial sys mem⟩
  | client _ writes ih =>
    obtain ⟨leaked, free, tidy⟩ := ih
    exact ⟨leaked, free, client_leaked tidy writes⟩
  | call _ tame step ih =>
    obtain ⟨leaked, free, tidy⟩ := ih
    obtain ⟨leaked', free', tidy', -⟩ := tame_step tidy (tame free tidy.chain) step
    exact ⟨leaked', free', tidy'⟩

/-- Nothing leaks in a run that moves no block. -/
theorem staying_run_tidy (run : StayingRun sys s) : ∃ free, Tidy sys s.heap s.live free := by
  induction run with
  | start mem => exact ⟨[], Tidy.initial sys mem⟩
  | client _ writes ih =>
    obtain ⟨free, tidy⟩ := ih
    exact ⟨free, client_tidy tidy writes⟩
  | @call s call s' _ holds step ih =>
    obtain ⟨free, tidy⟩ := ih
    have start : Tidy sys s.heap (s.live ++ []) free := by
      rw [List.append_nil]
      exact tidy
    obtain ⟨leaked', free', tidy', none⟩ := tame_step start (holds.1 free tidy.chain) step
    rw [none holds.2, List.append_nil] at tidy'
    exact ⟨free', tidy'⟩

/-- A block freed in a heap in order is listed or above the end of the heap. -/
theorem released_of_freed (tidy : Tidy sys h live free) (used : b ∈ live)
    (tidy' : Tidy sys h' (live.filter fun c => c.ptr ≠ b.ptr) free') (r : Nat) :
    Released h' b r := by
  have bounds := tidy.block_bounds used
  intro x inside
  by_cases above : h'.blockEnd ≤ x
  · exact Or.inr (Or.inl above)
  · refine Or.inl ?_
    have lost := Tidy.loses_nothing (s := ⟨h', live.filter fun c => c.ptr ≠ b.ptr⟩) tidy'
    cases lost x (Nat.le_trans bounds.1 inside.1) (Nat.lt_of_not_le above) with
    | inl live' =>
      obtain ⟨c, others, holds⟩ := live'
      have apart := (tidy.perm (tidy.live_perm used)).block_apart_block others
      simp only [Extent.Holds, Block.extent, Extent.stop] at inside holds
      omega
    | inr listed => exact listed

/-- A block that moved is still where it was: not listed, below the end of the
heap, and apart from the new block. -/
theorem not_released (tidy : Tidy sys h (⟨block, total, requested⟩ :: live) free)
    (used : b ∈ live) : ¬ Released h b (block + 8) := by
  intro released
  have bounds := tidy.block_bounds (List.mem_cons_of_mem _ used)
  have first : b.extent.Holds b.addr := by
    simp only [Extent.Holds, Block.extent, Extent.stop]
    omega
  rcases released b.addr first with ⟨n, on, holds⟩ | above | ⟨-, holds⟩
  · have apart := tidy.block_apart_node (List.mem_cons_of_mem _ used) (tidy.chain.reach_iff.mp on)
    have positive := (tidy.node_bounds (tidy.chain.reach_iff.mp on)).2.2.2.2.2
    simp only [Extent.Holds, Extent.stop, extentAt, sizeAt] at holds
    simp only [word] at apart positive
    omega
  · omega
  · have apart := tidy.block_apart_block used
    have header : h.sizeAt block = total := tidy.headers ⟨block, total, _⟩ List.mem_cons_self
    simp only [Extent.Holds, Extent.stop, extentAt, Nat.add_sub_cancel, header] at holds
    simp only at apart
    omega

theorem new_pointer (tidy : Tidy sys h (⟨block, total, requested⟩ :: live) free)
    (used : b ∈ live) : block + 8 ≠ b.ptr := by
  intro same
  have apart := tidy.block_apart_block used
  have bounds := tidy.block_bounds (List.mem_cons_of_mem _ used)
  have bounds' := tidy.block_bounds List.mem_cons_self
  simp only [Block.ptr] at same
  simp only at apart bounds'
  omega

/-- In a tame run only the request that fits in the block but not behind its header
is not met, and a resize always keeps the client's bytes. -/
theorem tame_run_resizes (run : TameRun sys s) (used : b ∈ s.live) (positive : 0 < size)
    (fits : (Call.kurealloc b.ptr size).NoWrap)
    (clean : ∀ nodes, s.heap.FreeList nodes → ResizesCleanly s.heap nodes b size)
    (ran : kurealloc sys rounds s.heap b.ptr size = .ok (r, h'))
    (quiet : h'.sbrkFailures = s.heap.sbrkFailures) (bounded : h'.brk < sys.base + 2 ^ 31) :
    (UsableAt h' r size ↔ s.heap.word b.addr < size ∨ size + 8 ≤ s.heap.word b.addr) ∧
    ∀ i < min b.requested size, h'.mem (r + i) = s.heap.mem (b.ptr + i) := by
  obtain ⟨leaked, free, tidy⟩ := tame_run_tidy run
  have used' : b ∈ s.live ++ leaked := List.mem_append_left _ used
  rw [tidy.headers b used']
  rcases resize_tidy tidy used' fits (clean free tidy.chain) ran quiet bounded with
    ⟨zero, -⟩ | ⟨-, enough, rfl, rfl⟩ | ⟨short, block, free', rfl, tidy', data⟩
  · exact absurd zero (Nat.ne_of_gt positive)
  · have source : b.ptr - 8 = b.addr := Nat.add_sub_cancel ..
    rw [UsableAt, source, tidy.headers b used']
    exact ⟨⟨Or.inr, fun holds => by omega⟩, fun i _ => rfl⟩
  · have header : h'.word block = exactTotal (exactTotal size) :=
      tidy'.headers ⟨block, exactTotal (exactTotal size), size⟩ List.mem_cons_self
    have large : size + 8 ≤ exactTotal (exactTotal size) :=
      tidy'.room ⟨block, exactTotal (exactTotal size), size⟩ List.mem_cons_self
    rw [UsableAt, Nat.add_sub_cancel, header]
    constructor
    · exact ⟨fun _ => Or.inl short, fun _ => large⟩
    · intro i inside
      have room := tidy.room b used'
      exact data i (by omega)

/-- Whether the call is tame and moves no block, for scripts. -/
def Call.checkStaying (s : State) (call : Call) : Bool :=
  match s.heap.listed 64 s.heap.head with
  | none => false
  | some nodes => call.TameOn s nodes ∧ call.Stays s

theorem Call.checkStaying_sound (s : State) (call : Call) (passed : call.checkStaying s = true) :
    call.Tame s ∧ call.Stays s := by
  unfold checkStaying at passed
  split at passed
  · cases passed
  · next nodes walked =>
    have holds := of_decide_eq_true passed
    exact ⟨fun nodes' list => chain_unique (listed_chain walked) list ▸ holds.1, holds.2⟩

/-- A run with a resize in place: the block can then be resized to nothing, and to
more than it has. -/
theorem staying_run_exists : ∃ s, StayingRun pagedSystem s ∧ ⟨65536, 32, 8⟩ ∈ s.live ∧
    ∀ size ∈ [0, 40], (∀ nodes, s.heap.FreeList nodes →
      ResizesCleanly s.heap nodes ⟨65536, 32, 8⟩ size) ∧
      ∃ r h', kurealloc pagedSystem 64 s.heap 65544 size = .ok (r, h') ∧
        h'.sbrkFailures = s.heap.sbrkFailures ∧ h'.brk < pagedSystem.base + 2 ^ 31 := by
  have ends : (playScript pagedSystem Call.checkStaying 64 freshState
      [.kumalloc 24, .kucalloc 2 4, .kurealloc 65544 8, .kumalloc 8]).any (fun s =>
        ⟨65536, 32, 8⟩ ∈ s.live ∧ s.heap.listed 64 s.heap.head = some [] ∧
        ∀ size ∈ [0, 40], ResizesCleanly s.heap [] ⟨65536, 32, 8⟩ size ∧
          (kurealloc pagedSystem 64 s.heap 65544 size).toOption.any fun out =>
            out.2.sbrkFailures = s.heap.sbrkFailures ∧ out.2.brk < pagedSystem.base + 2 ^ 31) =
      true := by
    decide +kernel
  obtain ⟨s, played, shape⟩ := (Option.any_eq_true _ _).mp ends
  have run : StayingRun pagedSystem s := run_of_script Call.checkStaying_sound (.start _) played
  obtain ⟨used, walked, resizes⟩ := of_decide_eq_true shape
  refine ⟨s, run, used, fun size member => ⟨fun nodes list => ?_, ?_⟩⟩
  · exact chain_unique (listed_chain walked) list ▸ (resizes size member).1
  · have returns := (resizes size member).2
    cases ran : kurealloc pagedSystem 64 s.heap 65544 size with
    | error stop => simp [ran, Except.toOption] at returns
    | ok out => exact ⟨out.1, out.2, rfl, by simpa [ran, Except.toOption] using returns⟩

/-- The block of a resize that returns another pointer is given back exactly when
the resize is to nothing: of the resizes to something those in place return the
same pointer, and the others leak the block. So the blocks of a run that makes no
such move are all live or listed. -/
theorem kurealloc_releases (sys : System) (s : State) :
    (∀ b ∈ s.live, ∀ size rounds r h', TameRun sys s → (Call.kurealloc b.ptr size).NoWrap →
      (∀ nodes, s.heap.FreeList nodes → ResizesCleanly s.heap nodes b size) →
      kurealloc sys rounds s.heap b.ptr size = .ok (r, h') →
      h'.sbrkFailures = s.heap.sbrkFailures → h'.brk < sys.base + 2 ^ 31 →
      ((r ≠ b.ptr → Released h' b r) ↔ size = 0 ∨ size ≤ s.heap.word b.addr)) ∧
    (StayingRun sys s → NothingLost sys s) := by
  constructor
  · intro b used size rounds r h' run fits clean ran quiet bounded
    obtain ⟨leaked, free, tidy⟩ := tame_run_tidy run
    have used' : b ∈ s.live ++ leaked := List.mem_append_left _ used
    rw [tidy.headers b used']
    rcases resize_tidy tidy used' fits (clean free tidy.chain) ran quiet bounded with
      ⟨zero, -, free', tidy'⟩ | ⟨-, enough, same, -⟩ | ⟨short, block, free', rfl, tidy', -⟩
    · exact ⟨fun _ => Or.inl zero, fun _ _ => released_of_freed tidy used' tidy' r⟩
    · exact ⟨fun _ => Or.inr enough, fun _ moved => absurd same moved⟩
    · exact ⟨fun released => absurd (released (new_pointer tidy' used')) (not_released tidy' used'),
        fun stays => by omega⟩
  · intro run
    obtain ⟨free, tidy⟩ := staying_run_tidy run
    exact tidy.loses_nothing

/-- The block is resized to nothing. -/
theorem kurealloc_releases_freed : ∃ s, ⟨65536, 32, 8⟩ ∈ s.live ∧ NothingLost pagedSystem s ∧
    ∃ r h', kurealloc pagedSystem 64 s.heap 65544 0 = .ok (r, h') ∧
      (r ≠ 65544 → Released h' ⟨65536, 32, 8⟩ r) := by
  obtain ⟨s, run, used, resizes⟩ := staying_run_exists
  obtain ⟨clean, r, h', ran, quiet, bounded⟩ := resizes 0 (by decide)
  have tame : TameRun pagedSystem s := run.mono fun _ _ holds => holds.1
  have both := kurealloc_releases pagedSystem s
  exact ⟨s, used, both.2 run, r, h', ran,
    (both.1 _ used 0 64 r h' tame (by decide) clean ran quiet bounded).mpr (Or.inl rfl)⟩

/-- The block is resized to more than it has: it moves, and is not freed. -/
theorem kurealloc_leaks : ∃ s, AnyRun pagedSystem s ∧ ∃ b ∈ s.live, ∃ r h',
    kurealloc pagedSystem 64 s.heap b.ptr 40 = .ok (r, h') ∧ r ≠ b.ptr ∧ ¬ Released h' b r := by
  obtain ⟨s, run, used, resizes⟩ := staying_run_exists
  obtain ⟨clean, r, h', ran, quiet, bounded⟩ := resizes 40 (by decide)
  obtain ⟨free, tidy⟩ := staying_run_tidy run
  refine ⟨s, run.mono fun _ _ _ => trivial, _, used, r, h', ran, ?_⟩
  rcases resize_tidy tidy used (by decide) (clean free tidy.chain) ran quiet bounded with
    ⟨zero, -⟩ | ⟨-, enough, -⟩ | ⟨-, block, free', rfl, tidy', -⟩
  · exact absurd zero (by decide)
  · exact absurd enough (by decide)
  · exact ⟨new_pointer tidy' used, not_released tidy' used⟩

end

end Comp304.Alloc
