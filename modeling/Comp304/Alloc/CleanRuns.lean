import Comp304.Alloc.Reuse
import Comp304.Alloc.Trim

/-! Runs of clean calls. One call keeps the heap in order and spares every block
it is not asked to free; so the heap is in order in every state, and what the
allocator is for holds there. -/
namespace Comp304.Alloc
open Library.Budget Library.ByteMemory Library.Lp64 Library.Extents Library.LinkedChain Heap

section
variable {sys : System} {s s' : State} {h : Heap} {live : List Block} {free : List Nat}

/-- The blocks a call is not asked to free. -/
def Call.others (live : List Block) : Call → List Block
  | .kufree ptr => live.filter fun b => b.ptr ≠ ptr
  | _ => live

theorem Tidy.initial (sys : System) (mem : Memory) : Tidy sys (Heap.initial sys mem) [] [] where
  chain := chain_nil.mpr rfl
  headers := by simp
  space := Space.empty sys.base
  grain := by simp
  room := by simp
  ledger := ⟨Nat.le_refl _, sys.base_le_limit, fun _ => rfl, fun used => absurd rfl used⟩
  untouched _ := rfl
  bounded := Nat.lt_add_of_pos_right (by decide)

/-- What the client writes between calls is neither a header nor part of a node. -/
theorem client_tidy {mem : Memory} (tidy : Tidy sys s.heap s.live free) (writes : ClientWrites sys s mem) :
    Tidy sys { s.heap with mem := mem } s.live free := by
  have tiling := tidy.space.tiling
  have payload : ∀ b ∈ s.live, ∀ x, b.ptr ≤ x → x < b.ptr + b.requested →
      b.extent.Holds x ∧ b.addr + 8 ≤ x := by
    intro b member x low high
    have room := tidy.room b member
    simp only [Block.ptr] at low high
    exact ⟨⟨by simp only [Block.extent]; omega, by simp only [Block.extent, Extent.stop]; omega⟩, low⟩
  refine tidy.frame (fun b member x low high => ?_) (fun n member x low high => ?_)
  · have bounds := tidy.block_bounds member
    refine writes x (by omega) (by omega) fun c member' inside => ?_
    obtain ⟨holds, above⟩ := payload c member' x inside.1 inside.2
    have same := tiling.eq_of_holds (e := c.extent) (f := b.extent)
      (List.mem_append_left _ (List.mem_map_of_mem member'))
      (List.mem_append_left _ (List.mem_map_of_mem member)) holds
      ⟨low, by simp only [Block.extent, Extent.stop]; omega⟩
    have addr : c.addr = b.addr := congrArg Extent.lo same
    omega
  · have bounds := tidy.node_bounds member
    refine writes x (by omega) (by omega) fun c member' inside => ?_
    obtain ⟨holds, -⟩ := payload c member' x inside.1 inside.2
    have apart := tidy.block_apart_node member' member
    simp only [Extent.Holds, Block.extent, Extent.stop] at holds
    omega

/-- The block that was handed out is tracked with the size in its header. -/
theorem handOut_eq (header : h.word block = total) :
    handOut live (block + 8) requested h = ⟨block, total, requested⟩ :: live := by
  have size : h.sizeAt block = total := header
  simp [handOut, size]

/-- One clean call. -/
theorem step_tidy (tidy : Tidy sys s.heap s.live free) (plain : call.Plain)
    (clean : call.CleanOn s free) (step : Step sys s call s') :
    ∃ free', Tidy sys s'.heap s'.live free' ∧ Untouched (call.others s.live) s.heap s'.heap := by
  obtain ⟨rounds, result, ran, tracked⟩ := step.returns
  have quiet := step.granted
  have bounded := step.bounded
  rw [tracked]
  cases call with
  | kumalloc size =>
    by_cases zero : size = 0
    · simp only [Call.exec, kumalloc, if_pos zero] at ran
      obtain ⟨rfl, same⟩ := Prod.mk.inj (Except.ok.inj ran)
      rw [← same]
      exact ⟨free, tidy, .refl _ _⟩
    · have positive : 0 < size := Nat.pos_of_ne_zero zero
      have holds := (exactTotal_bounds positive step.noWrap).2.2.2
      obtain ⟨block, free', rfl, tidy', untouched⟩ := kumalloc_tidy tidy positive step.noWrap
        (clean positive) holds ran quiet bounded
      refine ⟨free', ?_, untouched⟩
      simp only [track]
      rw [handOut_eq (tidy'.headers _ List.mem_cons_self)]
      exact tidy'
  | kucalloc nmemb size =>
    by_cases zero : size = 0 ∨ nmemb = 0
    · simp only [Call.exec, kucalloc, if_pos zero] at ran
      obtain ⟨rfl, same⟩ := Prod.mk.inj (Except.ok.inj ran)
      rw [← same]
      exact ⟨free, tidy, .refl _ _⟩
    · have positive : 0 < nmemb * size := by
        simp only [not_or] at zero
        exact Nat.mul_pos (Nat.pos_of_ne_zero zero.2) (Nat.pos_of_ne_zero zero.1)
      obtain ⟨block, free', rfl, tidy', untouched⟩ := kucalloc_tidy tidy positive step.noWrap
        (clean positive) ran quiet bounded
      refine ⟨free', ?_, untouched⟩
      simp only [track]
      rw [handOut_eq (tidy'.headers _ List.mem_cons_self)]
      exact tidy'
  | kufree ptr =>
    obtain ⟨b, member, rfl⟩ := step.legal
    obtain ⟨final, ran, same⟩ := bind_eq_ok.mp ran
    cases same
    exact kufree_tidy tidy member (clean b member rfl) ran quiet
  | kurealloc ptr size => exact plain.elim

/-- The heap is in order in every state of a clean run. -/
theorem clean_run_tidy (run : CleanRun sys s) : ∃ free, Tidy sys s.heap s.live free := by
  induction run with
  | start mem => exact ⟨[], Tidy.initial sys mem⟩
  | client _ writes ih =>
    obtain ⟨free, tidy⟩ := ih
    exact ⟨free, client_tidy tidy writes⟩
  | call _ clean step ih =>
    obtain ⟨free, tidy⟩ := ih
    obtain ⟨free', tidy', -⟩ := step_tidy tidy clean.1 (clean.2 free tidy.chain) step
    exact ⟨free', tidy'⟩

/-- Whichever list the heap of a clean run has, it is in order with that one. -/
theorem clean_run_lists (run : CleanRun sys s) (list : s.heap.FreeList free) :
    Tidy sys s.heap s.live free := by
  obtain ⟨free', tidy⟩ := clean_run_tidy run
  exact chain_unique tidy.chain list ▸ tidy

end

end Comp304.Alloc
