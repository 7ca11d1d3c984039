import Mathlib.Tactic.Ring

/-! Byte-addressed memory with little-endian numbers of any width. A load sees
the last store to exactly its bytes, and no store reaches past its own. -/
namespace Comp304.Library.ByteMemory

/-- One byte at every address. -/
abbrev Memory := Nat → UInt8

/-- The number stored little-endian in `width` bytes from `start`. -/
def loadBytes (memory : Memory) (start : Nat) : Nat → Nat
  | 0 => 0
  | width + 1 => (memory start).toNat + 256 * loadBytes memory (start + 1) width

/-- Store the low `width` bytes of `value` from `start`. -/
def storeBytes (memory : Memory) (start value width : Nat) : Memory := fun address =>
  if start ≤ address ∧ address < start + width then
    UInt8.ofNat (value / 256 ^ (address - start))
  else memory address

/-- Every one of `width` bytes from `start` becomes `byte`. -/
def fill (memory : Memory) (start : Nat) (byte : UInt8) (width : Nat) : Memory := fun address =>
  if start ≤ address ∧ address < start + width then byte else memory address

/-- The `width` bytes from `source`, copied to `target`. -/
def copy (memory : Memory) (target source width : Nat) : Memory := fun address =>
  if target ≤ address ∧ address < target + width then memory (source + (address - target))
  else memory address

theorem loadBytes_congr {first second : Memory}
    (same : ∀ i < width, first (start + i) = second (start + i)) :
    loadBytes first start width = loadBytes second start width := by
  induction width generalizing start with
  | zero => rfl
  | succ width ih =>
    have head := same 0 (by omega)
    have tail : loadBytes first (start + 1) width = loadBytes second (start + 1) width := by
      apply ih
      intro i below
      have byte := same (i + 1) (by omega)
      rwa [show start + (i + 1) = start + 1 + i by omega] at byte
    simp only [loadBytes, tail]
    rw [Nat.add_zero] at head
    rw [head]

theorem loadBytes_zero (start width : Nat) : loadBytes (fun _ => 0) start width = 0 := by
  induction width generalizing start with
  | zero => rfl
  | succ width ih => simp [loadBytes, ih]

theorem loadBytes_lt (memory : Memory) (start width : Nat) :
    loadBytes memory start width < 256 ^ width := by
  induction width generalizing start with
  | zero => simp [loadBytes]
  | succ width ih =>
    have byte := (memory start).toNat_lt
    have rest := ih (start + 1)
    simp only [loadBytes, pow_succ]
    omega

private theorem loadBytes_of_digits {memory : Memory} (value : Nat)
    (digits : ∀ i < width, memory (start + i) = UInt8.ofNat (value / 256 ^ i)) :
    loadBytes memory start width = value % 256 ^ width := by
  induction width generalizing start value with
  | zero => simp [loadBytes, Nat.mod_one]
  | succ width ih =>
    have low : (memory start).toNat = value % 256 := by
      have byte := digits 0 (by omega)
      rw [Nat.add_zero] at byte
      simp [byte]
    have high : loadBytes memory (start + 1) width = (value / 256) % 256 ^ width := by
      apply ih
      intro i below
      rw [show start + 1 + i = start + (i + 1) by omega, digits (i + 1) (by omega),
        Nat.div_div_eq_div_mul, pow_succ']
    rw [loadBytes, low, high, pow_succ', Nat.mod_mul]

/-- A load of what was just stored. -/
theorem loadBytes_storeBytes_same (memory : Memory) (start value width : Nat) :
    loadBytes (storeBytes memory start value width) start width = value % 256 ^ width := by
  apply loadBytes_of_digits
  intro i below
  simp [storeBytes, below]

theorem storeBytes_outside (memory : Memory) (value : Nat)
    (outside : address < start ∨ start + width ≤ address) :
    storeBytes memory start value width address = memory address := by
  unfold storeBytes
  rw [if_neg (by omega)]

theorem fill_inside (memory : Memory) (byte : UInt8) (inside : i < width) :
    fill memory start byte width (start + i) = byte := by
  unfold fill
  rw [if_pos (by omega)]

theorem fill_outside (memory : Memory) (byte : UInt8)
    (outside : address < start ∨ start + width ≤ address) :
    fill memory start byte width address = memory address := by
  unfold fill
  rw [if_neg (by omega)]

theorem copy_inside (memory : Memory) (target source : Nat) (inside : i < width) :
    copy memory target source width (target + i) = memory (source + i) := by
  unfold copy
  rw [if_pos (by omega), Nat.add_sub_cancel_left]

theorem copy_outside (memory : Memory) (source : Nat)
    (outside : address < target ∨ target + width ≤ address) :
    copy memory target source width address = memory address := by
  unfold copy
  rw [if_neg (by omega)]

/-- A load does not see a store to other bytes. -/
theorem loadBytes_storeBytes_apart (memory : Memory) (value : Nat)
    (apart : start + width ≤ start' ∨ start' + width' ≤ start) :
    loadBytes (storeBytes memory start' value width') start width =
      loadBytes memory start width := by
  apply loadBytes_congr
  intro i below
  exact storeBytes_outside memory value (by omega)

end Comp304.Library.ByteMemory
