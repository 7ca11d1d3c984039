import Comp304.Framework.Checked

/-! What the checks let pass: the conditions on the memory and on the allocator under
which a checked call returns. -/
namespace Comp304.Framework
open Library.Budget Library.Lp64 Library.Extents

section
variable {σ ε : Type} {al : Allocator σ ε} {w w' : World σ} {st : Store}
  {lists : ListName → List Nat} {ptr size : Nat} {s s' : σ}

/-! ### Buffers that are left alone -/

theorem Allocator.Reads.congr {r : Extent × Nat} (same : ∀ a, r.1.Holds a → al.read a s' = al.read a s)
    (reads : al.Reads s r) : al.Reads s' r := fun a holds => by
  rw [same a holds]
  exact reads a holds

/-- A write elsewhere leaves a buffer as it is. -/
theorem Allocator.Reads.elsewhere {r : Extent × Nat} {byte : UInt8}
    (written : al.memset ptr byte size s = .ok s') (apart : r.1.Apart ⟨ptr, size⟩) :
    al.Reads s' r ↔ al.Reads s r := by
  have same : ∀ a, r.1.Holds a → al.read a s' = al.read a s := fun a holds => by
    rw [al.read_memset written, if_neg]
    exact apart a holds
  exact ⟨.congr fun a holds => (same a holds).symm, .congr same⟩

/-- A buffer that has just been filled. -/
theorem Allocator.reads_filled {data : Nat} (byte : data ≤ 254)
    (written : al.memset ptr (UInt8.ofNat data) size s = .ok s') : al.Reads s' (⟨ptr, size⟩, data) := by
  intro a holds
  have small : data < UInt8.size := Nat.lt_of_le_of_lt byte (by decide)
  refine ⟨UInt8.ofNat data, ?_, UInt8.toNat_ofNat_of_lt' small⟩
  rw [al.read_memset written, if_pos]
  exact holds

/-- With a new buffer the check passes when it passes for the others. -/
theorem intact_insert {data : Nat} {before : Set (Extent × Nat)} (byte : data ≤ 254)
    (written : al.memset ptr (UInt8.ofNat data) size s = .ok w'.memory)
    (apart : ∀ r ∈ before, r.1.Apart ⟨ptr, size⟩)
    (records : w'.store.records .allocs = insert (⟨ptr, size⟩, data) before) :
    Intact al w' ↔ ∀ r ∈ before, al.Reads s r := by
  rw [Intact, records]
  simp only [Set.mem_insert_iff, forall_eq_or_imp]
  refine (and_iff_right (Allocator.reads_filled byte written)).trans ?_
  exact forall_congr' fun r => imp_congr_right fun recorded =>
    Allocator.Reads.elsewhere written (apart r recorded)

/-! ### Allocations -/

/-- A buffer is handed on to the program when it is accepted and all others are intact.
With the check switched off it is enough that it is accepted. -/
theorem checkedAllocFrom_passes {source : Source} {nmemb rounds : Nat} {memory : σ}
    {unchecked : Bool} (valid : Valid w.store lists) (something : ¬ (nmemb = 0 ∨ size = 0))
    (allocated : allocate al source nmemb size w.memory = .ok (ptr, memory))
    (enough : (lists .allocs).length + 1 < rounds)
    (accepted : Accepted al (source == .calloc) ptr (mul nmemb size) { w with memory := memory })
    (intact : unchecked = false → Intact al { w with memory := memory }) :
    ∃ w', checkedAllocFrom al rounds unchecked source nmemb size w = .ok (ptr, w') := by
  have valid₁ : Valid ({ w with memory := memory } : World σ).store lists := valid
  obtain ⟨w', ran⟩ := checkBuffer_passes valid₁ (Nat.lt_of_succ_lt enough) accepted
  obtain ⟨-, gained⟩ := checkBuffer_returned valid₁ (mul_lt nmemb size) ran
  obtain ⟨lists', valid', count⟩ := gained.valid
  refine ⟨w', ?_⟩
  rw [checkedAllocFrom, allocated, ok_bind]
  simp only [if_neg something]
  rw [ran, ok_bind]
  cases unchecked with
  | true => rfl
  | false =>
    have intact' : Intact al w' := (intact_insert (getData_bounds _).2 gained.filled
      accepted.fresh.apart gained.allocs).mpr (intact rfl)
    rw [memlistCheckData_passes valid' (by omega) intact']
    rfl

/-- A request for nothing that is answered with NULL. -/
theorem checkZeroSized_null {rounds : Nat} (valid : Valid w.store lists)
    (enough : (lists .allocs).length < rounds) (intact : Intact al w)
    (absent : ∀ r ∈ w.store.records .allocs, ¬ r.1.Holds 0) : checkZeroSized al rounds 0 w = .ok w := by
  obtain ⟨alloc, settles, -, found⟩ := find_records valid allocs_sorted rounds 0
  have none : alloc = 0 := by
    by_contra some
    obtain ⟨inside, holds⟩ := found some
    exact absent _ (valid.mem_records.mpr ⟨alloc, inside, rfl⟩) holds
  rw [checkZeroSized, inLists_eq_ok.mpr (settles.reached enough), ok_bind, if_neg (not_not.mpr none),
    memlistCheckData_passes valid enough intact]
  rfl

theorem checkZeroSized_null_kept {rounds : Nat} (ran : checkZeroSized al rounds 0 w = .ok w') :
    w' = w := by
  rw [checkZeroSized] at ran
  obtain ⟨alloc, -, ran⟩ := bind_eq_ok.mp ran
  by_cases none : alloc = 0
  · rw [if_neg (not_not.mpr none)] at ran
    obtain ⟨⟨⟩, -, last⟩ := bind_eq_ok.mp ran
    exact (Except.ok.inj last).symm
  · rw [if_pos none] at ran
    obtain ⟨region, -, ran⟩ := bind_eq_ok.mp ran
    cases ran

/-! ### Frees -/

/-- The record of a place is one. -/
theorem Valid.record_unique {r t : Extent × Nat} (valid : Valid st lists) (recorded : r ∈ st.records .allocs)
    (recorded' : t ∈ st.records .allocs) (start : t.1.lo = r.1.lo) : t = r := by
  by_contra different
  exact valid.records_apart allocs_sorted recorded' recorded different r.1.lo
    (start ▸ valid.record_holds allocs_sorted recorded') (valid.record_holds allocs_sorted recorded)

/-- A buffer that is as it was filled can be retired. -/
theorem retire_passes {rounds : Nat} {r : Extent × Nat} (valid : Valid w.store lists)
    (recorded : r ∈ w.store.records .allocs) (reads : al.Reads w.memory r)
    (written : al.memset r.1.lo 0xff r.1.len w.memory = .ok s)
    (enough : (lists .allocs).length < rounds) :
    ∃ w', retire al rounds r.1.lo w = .ok w' ∧
      ∃ lists', Valid w'.store lists' ∧ (lists' .allocs).length < rounds := by
  obtain ⟨alloc, found, inside, same⟩ := find_recorded valid allocs_sorted enough recorded
    (valid.record_holds allocs_sorted recorded)
  obtain ⟨st₁, took, -, valid₁, loose⟩ := valid.removed inside
  obtain ⟨st₂, kept, -, valid₂⟩ := valid₁.pushed .freedAllocs id loose
  have start : r.1.lo = (w.store.regions alloc).start := same ▸ rfl
  have len : r.1.len = (w.store.regions alloc).stop - (w.store.regions alloc).start := same ▸ rfl
  have own : regionCheckData al (w.store.regions alloc) w.memory = .ok () :=
    regionCheckData_eq_ok.mpr (same ▸ reads)
  rw [len] at written
  refine ⟨{ w with store := st₂, memory := s }, ?_, _, valid₂, ?_⟩
  · rw [retire, inLists_eq_ok.mpr found, ok_bind, if_neg (valid.mapped inside).1,
      inLists_eq_ok.mpr (valid.get inside), ok_bind, if_neg (not_not.mpr start), own, ok_bind,
      inLists_eq_ok.mpr took, ok_bind, inMemory_eq_ok.mpr written, ok_bind, inLists_eq_ok.mpr kept]
    rfl
  · rw [Function.update_of_ne (by decide), Function.update_self]
    exact Nat.lt_of_le_of_lt (List.length_erase_le) enough

/-- What the program gives back is a buffer that is as it was filled, and the allocator
takes it and leaves the others as they are. -/
structure Releases (al : Allocator σ ε) (w : World σ) (ptr : Nat) (r : Extent × Nat) : Prop where
  recorded : r ∈ w.store.records .allocs
  start : r.1.lo = ptr
  reads : al.Reads w.memory r
  returns : ∃ s memory, al.memset ptr 0xff r.1.len w.memory = .ok s ∧ al.free ptr s = .ok memory ∧
    ∀ t ∈ w.store.records .allocs \ {r}, al.Reads memory t

theorem checkedFree_passes {rounds : Nat} {r : Extent × Nat} (valid : Valid w.store lists)
    (some : ¬ FreesNothing w ptr)
    (releases : Releases al w (if ptr = 2 ^ 64 - 1 then ptr - 1 else ptr) r)
    (enough : (lists .allocs).length + (lists .zeroSizedAllocs).length < rounds) :
    ∃ w', checkedFree al rounds ptr w = .ok w' := by
  have null : ptr ≠ 0 := fun null => some (Or.inl null)
  obtain ⟨s, memory, written, freed, others⟩ := releases.returns
  obtain ⟨alloc, settles, -, found⟩ := find_records valid zeroSizedAllocs_sorted rounds
    (if ptr = 2 ^ 64 - 1 then ptr - 1 else ptr)
  have buffer : alloc = 0 := by
    by_contra counted
    obtain ⟨inside, holds⟩ := found counted
    exact some (Or.inr ⟨_, valid.mem_records.mpr ⟨alloc, inside, rfl⟩, holds⟩)
  have searched := settles.reached (by omega)
  rw [← releases.start] at written
  have enough' : (lists .allocs).length < rounds := by omega
  obtain ⟨w₁, ran, lists₁, valid₁, room⟩ := retire_passes valid releases.recorded releases.reads written
    enough'
  rw [releases.start] at ran
  obtain ⟨t, retired⟩ := retire_returned valid ran
  obtain rfl : t = r := valid.record_unique releases.recorded retired.recorded
    (retired.start.trans releases.start.symm)
  have filled : s = w₁.memory :=
    Except.ok.inj (written.symm.trans (releases.start.symm ▸ retired.filled))
  have intact : Intact al { w₁ with memory := memory } := by
    intro u recorded
    exact others u (retired.allocs ▸ recorded)
  refine ⟨{ w₁ with memory := memory }, ?_⟩
  rw [checkedFree, if_neg null]
  simp only
  rw [inLists_eq_ok.mpr searched, ok_bind, takeOff, if_neg (not_not.mpr buffer), ran, ok_bind,
    ← filled, inMemory_eq_ok.mpr freed, ok_bind]
  rw [memlistCheckData_passes (w := { w₁ with memory := memory }) valid₁ room intact]
  rfl

/-! ### Resizing -/

theorem charToUnsignedLong_eq_iff {byte : UInt8} {data : Nat} (small : data ≤ 254) :
    charToUnsignedLong byte = data ↔ byte.toNat = data ∧ data < 128 := by
  have bound := byte.toNat_lt
  unfold charToUnsignedLong
  split <;> omega

/-- The contents pass when they have been kept, but no contents from 128 on pass. -/
theorem checkRetained_eq_ok {n data : Nat} (small : data ≤ 254) (some : 0 < n) :
    checkRetained al ptr n data s = .ok () ↔
      (∀ i < n, ∃ byte, al.read (add ptr i) s = .ok byte ∧ byte.toNat = data) ∧ data < 128 := by
  rw [checkRetained, forM_eq_ok]
  simp only [read_then_eq_ok, List.mem_range, charToUnsignedLong_eq_iff small]
  constructor
  · intro each
    obtain ⟨_, -, -, below⟩ := each 0 some
    refine ⟨fun i inside => ?_, below⟩
    obtain ⟨byte, read, same, -⟩ := each i inside
    exact ⟨byte, read, same⟩
  · rintro ⟨each, below⟩ i inside
    obtain ⟨byte, read, same⟩ := each i inside
    exact ⟨byte, read, same, below⟩

/-- The allocator does for a buffer what `realloc` promises: the contents are kept, the
new place overlaps no other buffer and can be written to, and the others are intact. -/
structure Resizes (al : Allocator σ ε) (w : World σ) (r : Extent × Nat) (size newptr : Nat)
    (memory : σ) : Prop where
  returns : al.realloc r.1.lo size w.memory = .ok (newptr, memory)
  kept : ∀ i < min r.1.len size, ∃ byte, al.read (add newptr i) memory = .ok byte ∧ byte.toNat = r.2
  fits : newptr + size < 2 ^ 64
  apart : ∀ s ∈ w.store.records .allocs \ {r}, s.1.Apart ⟨newptr, size⟩
  writable : ∃ s, al.memset newptr (UInt8.ofNat (getData w.dataCnt)) size memory = .ok s
  others : ∀ s ∈ w.store.records .allocs \ {r}, al.Reads memory s

/-- A resized buffer passes when its contents do. -/
theorem checkedResize_passes {rounds newptr : Nat} {r : Extent × Nat} {memory : σ}
    (valid : Valid w.store lists) (recorded : r ∈ w.store.records .allocs) (positive : 0 < size)
    (reads : al.Reads w.memory r) (resizes : Resizes al w r size newptr memory)
    (retained : checkRetained al newptr (min r.1.len size) r.2 memory = .ok ())
    (enough : (lists .allocs).length + 1 < rounds) :
    ∃ w', checkedResize al rounds r.1.lo size w = .ok (newptr, w') := by
  have short : size < 2 ^ 64 := by
    have fits := resizes.fits
    omega
  obtain ⟨alloc, found, inside, same⟩ := find_recorded valid allocs_sorted (Nat.lt_of_succ_lt enough)
    recorded (valid.record_holds allocs_sorted recorded)
  obtain ⟨st₁, took, alike, valid₁, -⟩ := valid.removed inside
  have removed := (valid.removed_records allocs_sorted inside alike valid₁).1
  rw [same] at removed
  have fresh : Fresh .allocs newptr size st₁ := ⟨positive, resizes.fits, removed ▸ resizes.apart⟩
  have fewer : (Function.update lists .allocs ((lists .allocs).erase alloc) .allocs).length < rounds := by
    rw [Function.update_self, List.length_erase_of_mem inside]
    omega
  obtain ⟨new, st₂, added⟩ := addRegion_fresh valid₁ allocs_sorted fewer fresh
  obtain ⟨-, lists', recorded'⟩ := addRegion_recorded valid₁ allocs_sorted short added
  obtain ⟨st₃, valid₃, records, -, filling⟩ := fillNew_spec al
    (w := { w with store := st₂, memory := memory }) recorded'
  obtain ⟨memory', written⟩ := resizes.writable
  rw [removed] at records
  have intact : Intact al (⟨st₃, getData w.dataCnt, memory'⟩ : World σ) :=
    (intact_insert (getData_bounds _).2 written resizes.apart records).mpr resizes.others
  have count := recorded'.count
  rw [Function.update_self, List.length_erase_of_mem inside] at count
  have room : (lists' .allocs).length < rounds := by omega
  have checked := memlistCheckData_passes valid₃ room intact
  have start : r.1.lo = (w.store.regions alloc).start := by
    rw [← same]
    rfl
  have own : regionCheckData al (w.store.regions alloc) w.memory = .ok () :=
    regionCheckData_eq_ok.mpr (same ▸ reads)
  have len : r.1.len = (w.store.regions alloc).stop - (w.store.regions alloc).start := by
    rw [← same]
    rfl
  have data : r.2 = (w.store.regions alloc).data := by
    rw [← same]
    rfl
  rw [len, data] at retained
  refine ⟨⟨st₃, getData w.dataCnt, memory'⟩, ?_⟩
  rw [checkedResize, inLists_eq_ok.mpr found, ok_bind, if_neg (valid.mapped inside).1,
    inLists_eq_ok.mpr (valid.get inside), ok_bind, if_neg (not_not.mpr start), own, ok_bind,
    inMemory_eq_ok.mpr resizes.returns, ok_bind]
  simp only
  rw [retained, ok_bind, inLists_eq_ok.mpr took, ok_bind, inLists_eq_ok.mpr added, ok_bind]
  simp only
  rw [filling, inMemory_eq_ok.mpr written, ok_bind]
  simp only [ok_bind]
  rw [checked]
  rfl

end

end Comp304.Framework
