import Comp304.Alloc.CleanRuns

/-! `kurealloc` on whatever heap it finds, clean or not. A header holds the size
of the whole block, itself included; the test for a resize in place and the
length of the copy both take it for the size of the payload. -/
namespace Comp304.Alloc
open Library.Budget Library.ByteMemory Library.Lp64 Library.Extents Library.LinkedChain Heap

/-- A run of calls of all four functions. -/
abbrev AnyRun (sys : System) : State → Prop := Run sys fun _ _ => True

/-- The eight bytes at one address and those at the other do not overlap. -/
def WordsApart (a c : Nat) : Prop := a + 8 ≤ c ∨ c + 8 ≤ a

/-- The block the first-fit search takes keeps its new header: the links that
lead to it are clear of the header and of the start of the remainder, and the
`prev` of the node behind it is clear of the header. -/
def TakesSafely (h : Heap) (total : Nat) : Prop :=
  ∀ front block, Path h.nextAt h.head front block → block ≠ 0 →
    (∀ n ∈ front, n ≠ 0 ∧ h.sizeAt n < total) → total ≤ h.sizeAt block →
    (∀ n ∈ front, WordsApart (n + 8) block ∧ WordsApart (n + 8) (block + total) ∧
      WordsApart (n + 8) (block + total + 8)) ∧
    (h.nextAt block ≠ 0 → WordsApart (h.nextAt block + 16) block)

/-- The block at the pointer has this many bytes behind its header. -/
def UsableAt (h : Heap) (ptr size : Nat) : Prop := size + 8 ≤ h.word (ptr - 8)

/-- The bytes `kurealloc` copies from: none when the block stays in place. -/
def copySource (h : Heap) (ptr size : Nat) : Extent :=
  ⟨ptr, if size ≤ h.word (ptr - 8) then 0 else h.word (ptr - 8)⟩

section
variable {sys : System} {s : State} {h h' : Heap} {live : List Block} {b : Block} {call : Call}

/-! ### The header of a new block -/

theorem findBlock_path (found : findBlock sys h total rounds start = .ok block) :
    ∃ front, Path h.nextAt start front block ∧ (∀ n ∈ front, n ≠ 0 ∧ h.sizeAt n < total) ∧
      (block ≠ 0 → total ≤ h.sizeAt block) := by
  induction rounds generalizing start with
  | zero => cases found
  | succ rounds ih =>
    simp only [findBlock] at found
    split at found
    · next null =>
      cases found
      exact ⟨[], null, by simp, fun nonnull => absurd rfl nonnull⟩
    · next nonnull =>
      obtain ⟨size, sized, found⟩ := bind_eq_ok.mp found
      obtain ⟨-, same⟩ := load_eq_ok.mp sized
      rw [same] at found
      split at found
      · next fits =>
        cases found
        exact ⟨[], rfl, by simp, fun _ => fits⟩
      · next small =>
        obtain ⟨next, followed, found⟩ := bind_eq_ok.mp found
        obtain ⟨-, same⟩ := load_eq_ok.mp followed
        rw [same] at found
        obtain ⟨front, path, passed, large⟩ := ih found
        refine ⟨start :: front, ⟨rfl, path⟩, fun n member => ?_, large⟩
        cases List.mem_cons.mp member with
        | inl first => exact first ▸ ⟨nonnull, Nat.lt_of_not_le small⟩
        | inr later => exact passed n later

/-- The predecessor of a node on the path is found on the path. -/
theorem unlinkBlock_found (path : Path h.nextAt start front block)
    (passed : ∀ n ∈ front, n ≠ 0) (nonnull : block ≠ 0) (other : start ≠ block)
    (ran : unlinkBlock sys block subseq sizeDiff h rounds start = .ok h') :
    ∃ p ∈ front, h.word (p + 8) = block ∧ unlinkNext sys subseq sizeDiff h p = .ok h' := by
  induction front generalizing start rounds with
  | nil => exact absurd path other
  | cons node front ih =>
    obtain ⟨rfl, path⟩ := path
    cases rounds with
    | zero => cases ran
    | succ rounds =>
      simp only [unlinkBlock] at ran
      obtain ⟨next, followed, ran⟩ := bind_eq_ok.mp ran
      obtain ⟨-, same⟩ := load_eq_ok.mp followed
      rw [same] at ran
      have onward : h.word (start + 8) ≠ 0 := by
        rw [word_next]
        cases front with
        | nil => exact fun null => nonnull (path.symm.trans null)
        | cons second front => exact fun null => passed second (by simp) (path.1.symm.trans null)
      rw [if_neg onward] at ran
      split at ran
      · next here => exact ⟨start, by simp, here, ran⟩
      · next further =>
        obtain ⟨p, member, leads, ran⟩ := ih path (fun n later => passed n (by simp [later]))
          further ran
        exact ⟨p, by simp [member], leads, ran⟩

/-- Taking a block out of the list leaves its header alone. -/
theorem unlinkNext_header (leads : h.word (p + 8) = block) (wide : block + 16 ≤ subseq)
    (clear : WordsApart (p + 8) block) (clear' : WordsApart (p + 8) (subseq + 8))
    (behind : h.word (block + 8) ≠ 0 → WordsApart (h.word (block + 8) + 16) block)
    (ran : unlinkNext sys subseq sizeDiff h p = .ok h') : h'.word block = h.word block := by
  unfold WordsApart at *
  by_cases positive : 0 < sizeDiff
  · obtain ⟨-, -, -, mapped, -, rfl⟩ :=
      (unlinkNext_eq_ok leads positive (by omega) (by omega)).mp ran
    have far := behind (by have := (accessible_bounds mapped).1; omega)
    rw [word_put_apart (by omega), word_put_apart (by omega), word_put_apart (by omega),
      word_put_apart (by omega)]
  · simp only [unlinkNext, gt_iff_lt, if_neg positive, getNext, setNext, setPrev, bind_eq_ok,
      load_eq_ok, store_eq_ok, and_assoc, exists_and_left, exists_eq_left, leads] at ran
    obtain ⟨-, -, mapped, -, -, -, rfl⟩ := ran
    have far := behind (by have := (accessible_bounds mapped).1; omega)
    rw [word_put_apart (by omega), word_put_apart (by omega)]

theorem reuseHead_header (first : h.head = block) (wide : block + 16 ≤ subseq)
    (behind : h.word (block + 8) ≠ 0 → WordsApart (h.word (block + 8) + 16) block)
    (ran : reuseHead sys subseq sizeDiff h = .ok h') : h'.word block = h.word block := by
  unfold WordsApart at *
  by_cases positive : 0 < sizeDiff
  · obtain ⟨-, -, -, -, rfl⟩ := (reuseHead_eq_ok first positive).mp ran
    rw [setHead_word, word_put_apart (by omega), word_put_apart (by omega)]
  · obtain ⟨-, ⟨-, rfl⟩ | ⟨nonnull, -, rfl⟩⟩ := (reuseHead_spent_eq_ok first positive).mp ran
    · rfl
    · have far := behind nonnull
      rw [word_put_apart (by omega), setHead_word]

/-- The header is written before anything else is read, so the block is mapped. -/
theorem reuseBlock_bounds (ran : reuseBlock sys rounds h block total = .ok h') :
    4096 ≤ block ∧ block < 2 ^ 63 := by
  simp only [reuseBlock, setNext, setSize, getSize, bind_eq_ok, store_eq_ok, load_eq_ok, and_assoc,
    exists_and_left, exists_eq_left] at ran
  exact accessible_bounds ran.2.1

theorem reuseBlock_header (path : Path h.nextAt h.head front block) (nonnull : block ≠ 0)
    (passed : ∀ n ∈ front, n ≠ 0) (wide : 16 ≤ total) (small : total < 2 ^ 63)
    (clear : ∀ n ∈ front, WordsApart (n + 8) block ∧ WordsApart (n + 8) (block + total) ∧
      WordsApart (n + 8) (block + total + 8))
    (behind : h.nextAt block ≠ 0 → WordsApart (h.nextAt block + 16) block)
    (ran : reuseBlock sys rounds h block total = .ok h') :
    block < 2 ^ 63 ∧ h'.word block = total := by
  have high := (reuseBlock_bounds ran).2
  obtain ⟨-, -, -, ran⟩ := (reuseBlock_eq_ok (by omega) (by omega)).mp ran
  refine ⟨high, ?_⟩
  generalize toSize _ = remainder at ran
  generalize subInt _ _ = sizeDiff at ran
  have header : (stamp h block total remainder).word block = total := stamp_header (by omega)
  have next : (stamp h block total remainder).word (block + 8) = h.nextAt block := stamp_next wide
  rw [← next] at behind
  split at ran
  · next first =>
    exact (reuseHead_header (h := stamp h block total remainder) first (by omega) behind ran).trans
      header
  · next other =>
    have same : ∀ n ∈ front, (stamp h block total remainder).word (n + 8) = h.word (n + 8) := by
      intro n member
      obtain ⟨one, two, three⟩ := clear n member
      unfold WordsApart at one two three
      exact stamp_word (by omega) (by omega)
    obtain ⟨p, member, leads, ran⟩ :=
      unlinkBlock_found (path_congr same path) passed nonnull other ran
    obtain ⟨one, -, three⟩ := clear p member
    exact (unlinkNext_header leads (by omega) one three behind ran).trans header

/-- A pointer the client may hold: eight past an address that can be written. -/
def Issued (ptr : Nat) : Prop := ∃ block, ptr = block + 8 ∧ 4096 ≤ block ∧ block < 2 ^ 63

/-- `kumalloc` has written to the address in front of what it returns. -/
theorem kumalloc_issued (positive : 0 < size) (ran : kumalloc sys rounds h size = .ok (r, h')) :
    Issued r := by
  simp only [kumalloc, if_neg (Nat.ne_of_gt positive)] at ran
  obtain ⟨block, -, ran⟩ := bind_eq_ok.mp ran
  split at ran
  · obtain ⟨final, stored, last⟩ := bind_eq_ok.mp ran
    cases last
    have bounds := accessible_bounds (store_eq_ok.mp stored).1
    exact ⟨_, add_header bounds.2, bounds⟩
  · obtain ⟨final, reused, last⟩ := bind_eq_ok.mp ran
    cases last
    have bounds := reuseBlock_bounds reused
    exact ⟨block, add_header bounds.2, bounds⟩

theorem kumalloc_pointer (ran : kumalloc sys rounds h size = .ok (r, h')) : r = 0 ∨ Issued r := by
  by_cases zero : size = 0
  · simp only [kumalloc, if_pos zero] at ran
    cases ran
    exact Or.inl rfl
  · exact Or.inr (kumalloc_issued (Nat.pos_of_ne_zero zero) ran)

/-- The header of a new block holds the total. -/
theorem kumalloc_header (positive : 0 < size) (fits : RequestFits size)
    (safe : TakesSafely h (exactTotal size))
    (ran : kumalloc sys rounds h size = .ok (r, h')) : h'.word (r - 8) = exactTotal size := by
  obtain ⟨wide, -, small, -⟩ := exactTotal_bounds positive fits
  simp only [kumalloc, if_neg (Nat.ne_of_gt positive), totalSize_exact fits.1] at ran
  obtain ⟨block, found, ran⟩ := bind_eq_ok.mp ran
  split at ran
  · obtain ⟨final, stored, last⟩ := bind_eq_ok.mp ran
    cases last
    obtain ⟨mapped, rfl⟩ := store_eq_ok.mp stored
    have bounds := accessible_bounds mapped
    rw [add_header bounds.2, Nat.add_sub_cancel, word_put_same (by omega)]
  · next nonnull =>
    obtain ⟨final, reused, last⟩ := bind_eq_ok.mp ran
    cases last
    obtain ⟨front, path, passed, large⟩ := findBlock_path found
    obtain ⟨clear, behind⟩ := safe front block path nonnull passed (large nonnull)
    obtain ⟨high, header⟩ := reuseBlock_header path nonnull (fun n member => (passed n member).1)
      wide small clear behind reused
    rw [add_header high, Nat.add_sub_cancel, header]

/-- In a heap in order every block is taken safely. -/
theorem Tidy.takesSafely (tidy : Tidy sys h live free) (total : Nat) : TakesSafely h total := by
  intro front block path nonnull passed large
  have large : total ≤ h.word block := large
  obtain ⟨back, rfl⟩ := tidy.chain.along_path path (fun null => (passed 0 null).1 rfl) nonnull
  unfold WordsApart
  constructor
  · intro n member
    have apart := tidy.others_apart (List.mem_append_left back member)
    omega
  · intro behind
    cases back with
    | nil => exact absurd tidy.chain.next_last behind
    | cons after back =>
      have apart := tidy.others_apart (n := after) (by simp)
      rw [tidy.chain.next_eq]
      omega

/-! ### Resizing -/

theorem exec_pointer (known : ∀ b ∈ live, Issued b.ptr) (legal : call.Legal live)
    (ran : call.exec sys rounds h = .ok (r, h')) : r = 0 ∨ Issued r := by
  cases call with
  | kumalloc size => exact kumalloc_pointer ran
  | kucalloc nmemb size =>
    simp only [Call.exec, kucalloc] at ran
    split at ran
    · cases ran
      exact Or.inl rfl
    · obtain ⟨⟨p, middle⟩, allocated, ran⟩ := bind_eq_ok.mp ran
      obtain ⟨final, -, last⟩ := bind_eq_ok.mp ran
      cases last
      exact kumalloc_pointer allocated
  | kufree ptr =>
    obtain ⟨final, -, last⟩ := bind_eq_ok.mp ran
    cases last
    exact Or.inl rfl
  | kurealloc ptr size =>
    simp only [Call.exec, kurealloc] at ran
    split at ran
    · obtain ⟨final, -, last⟩ := bind_eq_ok.mp ran
      cases last
      exact Or.inl rfl
    · split at ran
      · exact kumalloc_pointer ran
      · next nonnull =>
        obtain ⟨b, used, rfl⟩ := legal.resolve_left nonnull
        obtain ⟨prevSize, -, ran⟩ := bind_eq_ok.mp ran
        split at ran
        · cases ran
          exact Or.inr (known b used)
        · obtain ⟨⟨p, middle⟩, allocated, ran⟩ := bind_eq_ok.mp ran
          obtain ⟨final, -, last⟩ := bind_eq_ok.mp ran
          cases last
          exact kumalloc_pointer allocated

theorem handOut_issued (known : ∀ b ∈ live, Issued b.ptr) (pointer : r = 0 ∨ Issued r) :
    ∀ b ∈ handOut live r requested h, Issued b.ptr := by
  intro b member
  unfold handOut at member
  split at member
  · exact known b member
  · next nonnull =>
    cases List.mem_cons.mp member with
    | inl new =>
      obtain ⟨block, rfl, bounds⟩ := pointer.resolve_left nonnull
      exact new ▸ ⟨block, rfl, bounds⟩
    | inr old => exact known b old

/-- Every pointer the client holds in a run is an address the allocator wrote to. -/
theorem run_issued (run : Run sys allowed s) : ∀ b ∈ s.live, Issued b.ptr := by
  induction run with
  | start mem => simp
  | client _ _ known => exact known
  | @call s call s' _ _ step known =>
    obtain ⟨rounds, result, ran, tracked⟩ := step.returns
    have pointer := exec_pointer known step.legal ran
    rw [tracked]
    cases call with
    | kumalloc size => exact handOut_issued known pointer
    | kucalloc nmemb size => exact handOut_issued known pointer
    | kufree ptr => exact fun b member => known b (List.mem_of_mem_filter member)
    | kurealloc ptr size =>
      exact handOut_issued (fun b member => known b (List.mem_of_mem_filter member)) pointer

/-- The two ways of a resize. -/
theorem kurealloc_cases (positive : 0 < size) (issued : Issued b.ptr)
    (fits : size + 15 < 2 ^ 64) (ran : kurealloc sys rounds h b.ptr size = .ok (r, h')) :
    (size ≤ h.word b.addr ∧ r = b.ptr ∧ h' = h) ∨
    (h.word b.addr < size ∧ ∃ middle, kumalloc sys rounds h (exactTotal size) = .ok (r, middle) ∧
      memcpy sys middle r (copySource h b.ptr size).lo (copySource h b.ptr size).len = .ok h') := by
  obtain ⟨block, same, low, high⟩ := issued
  obtain rfl : b.addr = block := Nat.add_right_cancel same
  have header : sub b.ptr blockSize = b.addr := by
    rw [Block.ptr]
    exact sub_header (by omega)
  have nonnull : b.ptr ≠ 0 := by simp [Block.ptr]
  have nonzero : ¬ (size = 0 ∧ b.ptr ≠ 0) := fun both => Nat.ne_of_gt positive both.1
  simp only [kurealloc, header, if_neg nonnull, if_neg nonzero, getSize, bind_eq_ok, load_eq_ok,
    and_assoc, exists_and_left, exists_eq_left, totalSize_exact fits] at ran
  obtain ⟨-, ran⟩ := ran
  have source : b.ptr - 8 = b.addr := Nat.add_sub_cancel ..
  split at ran
  · next enough =>
    cases ran
    exact Or.inl ⟨enough, rfl, rfl⟩
  · next short =>
    refine Or.inr ⟨Nat.lt_of_not_le short, ?_⟩
    obtain ⟨⟨p, middle⟩, allocated, ran⟩ := bind_eq_ok.mp ran
    obtain ⟨final, copied, last⟩ := bind_eq_ok.mp ran
    cases last
    simp only [copySource, source, if_neg short]
    exact ⟨middle, allocated, copied⟩

theorem copySource_moved (short : h.word b.addr < size) :
    copySource h b.ptr size = ⟨b.ptr, h.word b.addr⟩ := by
  have source : b.ptr - 8 = b.addr := Nat.add_sub_cancel ..
  rw [copySource, source, if_neg (Nat.not_le_of_lt short)]

theorem memcpy_data (ran : memcpy sys h target source width = .ok h') (inside : i < width) :
    h'.mem (target + i) = h.mem (source + i) := by
  unfold memcpy at ran
  split at ran
  · cases ran
    exact copy_inside _ _ _ inside
  · cases ran

/-- What is copied does not reach the header in front of it. -/
theorem memcpy_header (ran : memcpy sys h target source width = .ok h') (low : 8 ≤ target) :
    h'.word (target - 8) = h.word (target - 8) := by
  unfold memcpy at ran
  split at ran
  · cases ran
    exact word_congr fun x _ below => copy_outside _ _ (by omega)
  · cases ran

/-- One block of sixteen bytes is live, and a resize to any of these sizes returns. -/
theorem one_block_exists : ∃ s, AnyRun pagedSystem s ∧ ⟨65536, 16, 8⟩ ∈ s.live ∧
    s.heap.word 65536 = 16 ∧
    ∀ size ∈ [8, 16, 24], (kurealloc pagedSystem 64 s.heap 65544 size).toOption.isSome := by
  have ends : (playScript pagedSystem (fun _ call => call.Plain) 64 freshState
      [.kumalloc 8]).any (fun s => ⟨65536, 16, 8⟩ ∈ s.live ∧ s.heap.word 65536 = 16 ∧
        ∀ size ∈ [8, 16, 24], (kurealloc pagedSystem 64 s.heap 65544 size).toOption.isSome) = true := by
    decide +kernel
  obtain ⟨s, run, shape⟩ := valid_of_script ends
  exact ⟨s, run.mono fun _ _ _ => trivial, of_decide_eq_true shape⟩

theorem returned_of_isSome {run : Except Fault (Nat × Heap)} (some : run.toOption.isSome) :
    ∃ r h', run = .ok (r, h') := by
  cases run with
  | error stop => cases some
  | ok result => exact ⟨result.1, result.2, rfl⟩

/-- A resized block that stays in place is large enough exactly when the request
and the header fit; a block that moves is, unless its header is overwritten while
it is taken from the list. -/
theorem kurealloc_usable (run : AnyRun sys s) (used : b ∈ s.live) (positive : 0 < size)
    (fits : (Call.kurealloc b.ptr size).NoWrap)
    (ran : kurealloc sys rounds s.heap b.ptr size = .ok (r, h')) :
    (size ≤ s.heap.word b.addr → (UsableAt h' r size ↔ size + 8 ≤ s.heap.word b.addr)) ∧
    (s.heap.word b.addr < size → TakesSafely s.heap (exactTotal (exactTotal size)) →
      UsableAt h' r size) := by
  have issued := run_issued run b used
  have source : b.ptr - 8 = b.addr := Nat.add_sub_cancel ..
  cases kurealloc_cases positive issued fits.1 ran with
  | inl place =>
    obtain ⟨enough, rfl, rfl⟩ := place
    rw [UsableAt, source]
    exact ⟨fun _ => Iff.rfl, fun short => absurd enough (Nat.not_le_of_lt short)⟩
  | inr moved =>
    obtain ⟨short, middle, allocated, copied⟩ := moved
    refine ⟨fun enough => absurd enough (Nat.not_le_of_lt short), fun _ safe => ?_⟩
    have room : size + 8 ≤ exactTotal size := by
      unfold exactTotal
      omega
    have bounds := exactTotal_bounds (show 0 < exactTotal size by omega) fits.2
    have header := kumalloc_header (by omega) fits.2 safe allocated
    obtain ⟨block, rfl, -, -⟩ := kumalloc_issued (by omega) allocated
    rw [UsableAt, memcpy_header copied (Nat.le_add_left 8 block), header]
    omega

/-- Eight bytes are enough in place. For twenty-four the block moves to the second of three
listed blocks. -/
theorem kurealloc_usable_listed : ∃ s, AnyRun pagedSystem s ∧ ⟨65536, 16, 8⟩ ∈ s.live ∧
    s.heap.FreeList [65552, 65592, 65672] ∧
    (∃ r h', kurealloc pagedSystem 64 s.heap 65544 8 = .ok (r, h') ∧ UsableAt h' r 8) ∧
    ∃ h', kurealloc pagedSystem 64 s.heap 65544 24 = .ok (65600, h') ∧ UsableAt h' 65600 24 := by
  have ends : (playScript pagedSystem Call.checkClean 64 freshState
      [.kumalloc 8, .kumalloc 16, .kumalloc 8, .kumalloc 56, .kumalloc 8, .kumalloc 16, .kumalloc 8,
        .kufree 65680, .kufree 65600, .kufree 65560]).any (fun s => ⟨65536, 16, 8⟩ ∈ s.live ∧
          s.heap.word 65536 = 16 ∧ s.heap.listed 64 s.heap.head = some [65552, 65592, 65672] ∧
          (kurealloc pagedSystem 64 s.heap 65544 8).toOption.isSome ∧
          (kurealloc pagedSystem 64 s.heap 65544 24).toOption.any fun out => out.1 = 65600) = true := by
    decide +kernel
  obtain ⟨s, clean, shape⟩ := clean_of_script ends
  obtain ⟨used, header, listed, stays, moves⟩ := of_decide_eq_true shape
  have run : AnyRun pagedSystem s := clean.mono fun _ _ _ => trivial
  obtain ⟨free, tidy⟩ := clean_run_tidy clean
  obtain ⟨r, h, small⟩ := returned_of_isSome stays
  obtain ⟨⟨r', h'⟩, large, place⟩ := (Option.any_eq_true _ _).mp moves
  obtain rfl := of_decide_eq_true place
  have large := toOption_eq_some.mp large
  refine ⟨s, run, used, listed_chain listed, ⟨r, h, small, ?_⟩, h', large, ?_⟩
  · have whole : 8 + 8 = s.heap.word 65536 := header.symm
    have enough : 8 ≤ s.heap.word 65536 := whole ▸ Nat.le_add_left 8 8
    exact ((kurealloc_usable run used (by decide) (by decide) small).1 enough).mpr
      (Nat.le_of_eq whole)
  · exact (kurealloc_usable run used (by decide) (by decide) large).2 (by rw [header]; decide)
      (tidy.takesSafely _)

/-- A block of sixteen bytes, eight of them its header, is resized to sixteen. -/
theorem kurealloc_unusable : ∃ s, AnyRun pagedSystem s ∧ ∃ b ∈ s.live, ∃ r h',
    kurealloc pagedSystem 64 s.heap b.ptr 16 = .ok (r, h') ∧ ¬ UsableAt h' r 16 := by
  obtain ⟨s, run, used, header, returns⟩ := one_block_exists
  obtain ⟨r, h', ran⟩ := returned_of_isSome (returns 16 (by decide))
  refine ⟨s, run, _, used, r, h', ran, ?_⟩
  cases kurealloc_cases (b := ⟨65536, 16, 8⟩) (by decide) (run_issued run _ used) (by decide) ran with
  | inl place =>
    obtain ⟨-, rfl, rfl⟩ := place
    have front : (⟨65536, 16, 8⟩ : Block).ptr - 8 = 65536 := rfl
    rw [UsableAt, front, header]
    decide
  | inr moved => exact absurd moved.1 (by rw [header]; decide)

/-- The resize keeps what the client had stored, and reads nothing else. -/
structure KeepsContents (h h' : Heap) (b : Block) (r size : Nat) : Prop where
  data : ∀ i < min b.requested size, h'.mem (r + i) = h.mem (b.ptr + i)
  within : ∀ x, (copySource h b.ptr size).Holds x → b.ptr ≤ x ∧ x < b.addr + b.total

/-- A resize in place keeps the contents. As long as the header of the block is
what it was, no other does: a block that moves is copied with as many bytes from
beyond its end as its header has. -/
theorem kurealloc_contents (run : AnyRun sys s) (used : b ∈ s.live) (positive : 0 < size)
    (fits : (Call.kurealloc b.ptr size).NoWrap)
    (ran : kurealloc sys rounds s.heap b.ptr size = .ok (r, h')) :
    (size ≤ s.heap.word b.addr → KeepsContents s.heap h' b r size) ∧
    (0 < b.total → s.heap.word b.addr = b.total → KeepsContents s.heap h' b r size →
      size ≤ s.heap.word b.addr) := by
  constructor
  · intro enough
    cases kurealloc_cases positive (run_issued run b used) fits.1 ran with
    | inl place =>
      obtain ⟨-, rfl, rfl⟩ := place
      refine ⟨fun i _ => rfl, fun x inside => ?_⟩
      have source : b.ptr - 8 = b.addr := Nat.add_sub_cancel ..
      rw [copySource, source, if_pos enough] at inside
      exact absurd inside.2 (Nat.not_lt_of_le inside.1)
    | inr moved => exact absurd enough (Nat.not_le_of_lt moved.1)
  · intro full intact kept
    refine Nat.le_of_not_lt fun short => ?_
    -- the last byte that is copied is the eighth behind the block
    have last : (copySource s.heap b.ptr size).Holds (b.ptr + b.total - 1) := by
      rw [copySource_moved short, intact]
      simp only [Extent.Holds, Extent.stop]
      omega
    have beyond := (kept.within _ last).2
    simp only [Block.ptr] at beyond
    omega

theorem kurealloc_contents_one_block : ∃ s, AnyRun pagedSystem s ∧ ⟨65536, 16, 8⟩ ∈ s.live ∧
    ∃ r h', kurealloc pagedSystem 64 s.heap 65544 8 = .ok (r, h') ∧
      KeepsContents s.heap h' ⟨65536, 16, 8⟩ r 8 := by
  obtain ⟨s, run, used, header, returns⟩ := one_block_exists
  obtain ⟨r, h', ran⟩ := returned_of_isSome (returns 8 (by decide))
  exact ⟨s, run, used, r, h', ran,
    (kurealloc_contents run used (by decide) (by decide) ran).1 (by rw [header]; decide)⟩

/-- A block of sixteen bytes moves: sixteen are copied from its eight. -/
theorem kurealloc_reads_beyond : ∃ s, AnyRun pagedSystem s ∧ ∃ b ∈ s.live, ∃ r h',
    kurealloc pagedSystem 64 s.heap b.ptr 24 = .ok (r, h') ∧ ¬ KeepsContents s.heap h' b r 24 := by
  obtain ⟨s, run, used, header, returns⟩ := one_block_exists
  obtain ⟨r, h', ran⟩ := returned_of_isSome (returns 24 (by decide))
  refine ⟨s, run, _, used, r, h', ran, fun kept => ?_⟩
  have last : (copySource s.heap 65544 24).Holds 65552 := by
    rw [copySource, show (65544 - 8 : Nat) = 65536 from rfl, header]
    decide
  exact absurd (kept.within _ last).2 (by decide)

end

end Comp304.Alloc
