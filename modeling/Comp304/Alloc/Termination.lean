import Comp304.Alloc.Contract

/-! Every loop of the allocator walks the free list. On a list that ends they
end: the searches at the node they look for, or at the last one. A three-way
merge can tie the list into a knot, and then a search does not end. -/
namespace Comp304.Alloc
open Library.Budget Library.LinkedChain Heap

/-- The call ends, with a result or with a fault, once it has rounds enough. -/
def Terminates (sys : System) (h : Heap) (call : Call) : Prop :=
  ∃ enough, ∀ rounds, enough < rounds → Ends .spent (call.exec sys rounds h)

/-- If freeing the block trims the heap twice, the second block is found through
the right node. -/
def TrimsRight (h : Heap) (b : Block) : Prop :=
  ∀ nodes, h.FreeList nodes → h.blockEnd = b.addr + b.total → TrimsCleanly h nodes b.addr

section
variable {sys : System} {s : State} {h : Heap} {live : List Block} {free : List Nat} {b : Block}

/-! ### Straight-line code ends -/

theorem load_ends : Ends .spent (h.load sys a) := by
  unfold load
  exact .ite (.ok _) (by simp [Ends])

theorem store_ends : Ends .spent (h.store sys a v) := by
  unfold store
  exact .ite (.ok _) (by simp [Ends])

theorem takePlace_ends : Ends .spent (takePlace sys h keep drop) :=
  .ite (.bind load_ends fun _ => store_ends) (.ok _)

theorem mergeThree_ends : Ends .spent (mergeThree sys h keep block drop) := by
  refine .bind load_ends fun _ => .bind load_ends fun _ => .bind load_ends fun _ =>
    .bind store_ends fun _ => .bind ?_ fun _ => .bind ?_ fun _ => .bind takePlace_ends fun _ => ?_
  · exact .bind load_ends fun _ => .ite store_ends (.ok _)
  · exact .bind load_ends fun _ => .ite store_ends (.ok _)
  · exact .bind load_ends fun _ => .ite store_ends (.ok _)

theorem mergePlan_ends : Ends .spent (mergePlan sys h free block total) := by
  unfold mergePlan
  refine .ite (.bind store_ends fun _ => .ok _) ?_
  split
  · exact .bind store_ends fun _ => .bind store_ends fun _ => .ok _
  · exact .bind load_ends fun _ => .bind load_ends fun _ => .bind store_ends fun _ =>
      .bind load_ends fun _ => .bind store_ends fun _ => .bind load_ends fun _ =>
      .bind store_ends fun _ => takePlace_ends
  · exact .bind load_ends fun _ => .bind load_ends fun _ => store_ends
  · exact mergeThree_ends

theorem freePlan_ends : Ends .spent (freePlan sys h free block total) := by
  unfold freePlan
  refine .ite ?_ mergePlan_ends
  split
  · exact .ok _
  · refine .bind (.ite ?_ ?_) fun _ => .bind load_ends fun _ => .ok _
    · exact .bind load_ends fun _ => .ok _
    · exact .bind load_ends fun _ => .bind load_ends fun _ => store_ends

theorem unlinkNext_ends : Ends .spent (unlinkNext sys subseq sizeDiff h temp) := by
  unfold unlinkNext
  refine .ite ?_ ?_
  · exact .bind load_ends fun _ => .bind load_ends fun _ => .bind store_ends fun _ =>
      .bind load_ends fun _ => .bind load_ends fun _ => .bind store_ends fun _ =>
      .bind store_ends fun _ => store_ends
  · exact .bind load_ends fun _ => .bind load_ends fun _ => .bind store_ends fun _ =>
      .bind load_ends fun _ => .bind load_ends fun _ => store_ends

theorem reuseHead_ends : Ends .spent (reuseHead sys subseq sizeDiff h) := by
  unfold reuseHead
  refine .ite ?_ (.bind load_ends fun _ => .ite store_ends (.ok _))
  exact .bind load_ends fun _ => .bind store_ends fun _ => .bind load_ends fun _ =>
    .bind store_ends fun _ => .ok _

/-! ### The calls -/

theorem reuseBlock_ends (tidy : Tidy sys h live free) (listed : block ∈ free) (wide : 16 ≤ total)
    (fits : total ≤ h.word block) (budget : free.length < rounds) :
    Ends .spent (reuseBlock sys rounds h block total) := by
  rw [reuseBlock_eq tidy listed wide fits]
  by_cases first : h.head = block
  · rw [if_pos first]
    exact reuseHead_ends
  · rw [if_neg first]
    have list := stamped_chain tidy listed wide fits
    obtain ⟨front, back, rfl⟩ := List.append_of_mem listed
    cases List.eq_nil_or_concat' front with
    | inl empty =>
      subst empty
      exact absurd (show Chain 0 h.nextAt h.head (block :: back) from tidy.chain).head_eq first
    | inr split =>
      obtain ⟨front, p, rfl⟩ := split
      have shape : (front ++ [p]) ++ block :: back = front ++ p :: block :: back := by simp
      rw [shape] at list
      have readable : ∀ n ∈ front ++ [p],
          (stamped h block total).accessible sys (n + 8) 8 = true := fun n member =>
        (tidy.node_accessible (List.mem_append_left _ member)).2
      have enough : front.length.succ < rounds := by
        simp only [List.length_append, List.length_cons] at budget
        omega
      rw [(unlinkBlock_settles readable list).reached enough]
      exact unlinkNext_ends

theorem kumalloc_ends (tidy : Tidy sys h live free) (fits : RequestFits size)
    (budget : free.length < rounds) : Ends .spent (kumalloc sys rounds h size) := by
  by_cases zero : size = 0
  · simp only [kumalloc, if_pos zero]
    exact .ok _
  · simp only [kumalloc, if_neg zero, totalSize_exact fits.1]
    have wide := (exactTotal_bounds (Nat.pos_of_ne_zero zero) fits).1
    have search : findBlock sys h (exactTotal size) rounds h.head = _ :=
      (findBlock_settles (fun n => tidy.node_accessible) tidy.chain).reached budget
    simp only [search, ok_bind]
    cases found : h.firstFit free (exactTotal size) with
    | none => exact .bind store_ends fun _ => .ok _
    | some block =>
      have listed : block ∈ free := List.mem_of_find?_eq_some found
      have large := List.find?_some found
      simp only [decide_eq_true_eq] at large
      simp only [Option.getD_some, if_neg (tidy.chain.ne_null listed)]
      exact .bind (reuseBlock_ends tidy listed wide large budget) fun _ => .ok _

/-- After a clean run the free list ends and meets no node twice. Every further
`kumalloc` terminates, and every further `kufree` that trims rightly. -/
theorem clean_run_terminates (run : CleanRun sys s) :
    (∃ nodes, s.heap.FreeList nodes ∧ nodes.Nodup) ∧
    (∀ size, RequestFits size → Terminates sys s.heap (.kumalloc size)) ∧
    ∀ b ∈ s.live, TrimsRight s.heap b → Terminates sys s.heap (.kufree b.ptr) := by
  obtain ⟨free, tidy⟩ := clean_run_tidy run
  refine ⟨⟨free, tidy.chain, tidy.chain.nodup⟩, fun size fits => ⟨free.length, fun rounds budget => ?_⟩,
    fun b used trims => ⟨free.length, fun rounds budget => ?_⟩⟩
  · exact kumalloc_ends tidy fits budget
  · have shifted := tidy.perm (tidy.live_perm used)
    have settled := (kufree_settles shifted (trims free tidy.chain)).reached budget
    simp only [Call.exec, settled]
    exact .bind freePlan_ends fun _ => .ok _

theorem clean_run_terminates_reached : ∃ s : State, s.heap.head ≠ 0 ∧
    (∃ nodes, s.heap.FreeList nodes ∧ nodes.Nodup) ∧
    Terminates pagedSystem s.heap (.kumalloc 1000) ∧
    Terminates pagedSystem s.heap (.kufree 65864) := by
  obtain ⟨s, run, -, listed, clean, returns⟩ := clean_run_exists
  obtain ⟨finite, allocates, frees⟩ := clean_run_terminates run
  obtain ⟨s', played⟩ := Option.isSome_iff_exists.mp returns
  obtain ⟨b, used, pointer⟩ := (step_of_play played).legal
  have trims : TrimsRight s.heap b := fun nodes list =>
    ((Call.checkClean_sound s _ clean).2 nodes list b used pointer).last
  exact ⟨s, listed, finite, allocates 1000 (by decide), pointer ▸ frees b used trims⟩

/-- A search that comes to a node that is too small and leads to itself. -/
theorem findBlock_loops (sizeRead : h.accessible sys node 8 = true)
    (nextRead : h.accessible sys (node + 8) 8 = true) (nonnull : node ≠ 0)
    (small : h.word node < total) (loop : h.word (node + 8) = node) :
    findBlock sys h total rounds node = .error .spent := by
  induction rounds with
  | zero => rfl
  | succ rounds ih =>
    have short : ¬ h.word node ≥ total := Nat.not_le_of_lt small
    simp only [findBlock, if_neg nonnull, getSize, getNext, load_ok sizeRead, load_ok nextRead,
      ok_bind, if_neg short, loop]
    exact ih

/-- The left neighbour is followed by the right one, which is the last, and comes
after another block: it becomes its own successor. -/
theorem valid_run_knots : ∃ s, ValidRun pagedSystem s ∧ (¬ ∃ nodes, s.heap.FreeList nodes) ∧
    ¬ Terminates pagedSystem s.heap (.kumalloc 1000) := by
  have ends : (playScript pagedSystem (fun _ call => call.Plain) 64 freshState
      [.kumalloc 56, .kumalloc 56, .kumalloc 56, .kumalloc 56, .kumalloc 56, .kumalloc 56,
        .kumalloc 56, .kufree 65736, .kufree 65608, .kufree 65864, .kufree 65672]).any (fun s =>
      s.heap.head = 65856 ∧ s.heap.word 65856 < 1008 ∧ s.heap.word 65864 = 65600 ∧
        s.heap.word 65600 < 1008 ∧ s.heap.word 65608 = 65600 ∧
        ∀ a ∈ [65600, 65608, 65856, 65864], s.heap.accessible pagedSystem a 8) = true := by
    decide +kernel
  obtain ⟨s, run, shape⟩ := valid_of_script ends
  obtain ⟨head, small, next, small', loop, access⟩ := of_decide_eq_true shape
  refine ⟨s, run, ?_, ?_⟩
  · rintro ⟨nodes, list⟩
    have first : Reach 0 s.heap.nextAt s.heap.head s.heap.head := .start (by omega)
    have leads : s.heap.nextAt s.heap.head = 65600 := by rw [head]; exact next
    have second : Reach 0 s.heap.nextAt s.heap.head 65600 :=
      leads ▸ Reach.next first (by omega)
    exact list.no_loop (list.reach_iff.mp second) loop
  · rintro ⟨enough, terminates⟩
    refine terminates (enough + 2) (by omega) ?_
    have short : ¬ s.heap.word 65856 ≥ 1008 := by omega
    have total : sizeAlign (Library.Lp64.add 1000 blockSize) = 1008 := by decide
    have knot : findBlock pagedSystem s.heap 1008 (enough + 1) 65600 = .error .spent :=
      findBlock_loops (access _ (by simp)) (access _ (by simp)) (by decide) small' loop
    have stuck : findBlock pagedSystem s.heap 1008 (enough + 2) 65856 = .error .spent := by
      simp only [findBlock, getSize, getNext, load_ok (access 65856 (by simp)),
        load_ok (access 65864 (by simp)), ok_bind, if_neg short, next]
      exact knot
    simp only [Call.exec, kumalloc, total, head, stuck]
    rfl

end

end Comp304.Alloc
