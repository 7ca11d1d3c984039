import Mathlib.Algebra.Group.Nat.Defs
import Mathlib.Data.List.Basic

/-! Hexadecimal numbers as `printf` writes them with `%x`, and reading them back. -/
namespace Comp304.Library.Hex

/-- `%0<width>x` -/
def hex (width n : Nat) : List Char :=
  List.replicate (width - (Nat.toDigits 16 n).length) '0' ++ Nat.toDigits 16 n

def digitValue (c : Char) : Option Nat :=
  if '0' ≤ c ∧ c ≤ '9' then some (c.toNat - 48)
  else if 'a' ≤ c ∧ c ≤ 'f' then some (c.toNat - 87)
  else none

/-- The number that a text of digits stands for. -/
def readHex (text : List Char) : Option Nat :=
  text.foldlM (fun n c => (digitValue c).map (16 * n + ·)) 0

/-- The bytes that a text stands for, two digits each. -/
def readBytes : List Char → Option (List UInt8)
  | [] => some []
  | [_] => none
  | high :: low :: rest => do
    let n ← readHex [high, low]
    let bytes ← readBytes rest
    return UInt8.ofNat n :: bytes

theorem digitValue_digitChar (small : n < 16) : digitValue (Nat.digitChar n) = some n := by
  revert n
  decide

theorem readHex_concat (text : List Char) (c : Char) :
    readHex (text ++ [c]) = (readHex text).bind fun n => (digitValue c).map (16 * n + ·) := by
  rw [readHex, List.foldlM_append]
  simp [readHex, List.foldlM_cons, List.foldlM_nil]

theorem readHex_toDigits (n : Nat) : readHex (Nat.toDigits 16 n) = some n := by
  induction n using Nat.strongRecOn with
  | ind n ih =>
    rw [Nat.toDigits_eq_if (by decide)]
    split
    · next small =>
      have one := readHex_concat [] (Nat.digitChar n)
      rw [List.nil_append, digitValue_digitChar small] at one
      simpa [readHex] using one
    · next large =>
      have digit := digitValue_digitChar (Nat.mod_lt n (by decide : 0 < 16))
      rw [readHex_concat, ih (n / 16) (by omega), digit, Option.bind_some, Option.map_some,
        Nat.div_add_mod]

theorem readHex_zeros (count : Nat) (text : List Char) :
    readHex (List.replicate count '0' ++ text) = readHex text := by
  induction count with
  | zero => rfl
  | succ count ih =>
    rw [List.replicate_succ, List.cons_append, readHex, List.foldlM_cons]
    exact ih

@[simp] theorem readHex_hex (width n : Nat) : readHex (hex width n) = some n := by
  rw [hex, readHex_zeros, readHex_toDigits]

theorem length_hex (short : n < 16 ^ width) (positive : 0 < width) : (hex width n).length = width := by
  have few := (Nat.length_toDigits_le_iff (n := n) (by decide : 1 < 16) positive).mpr short
  rw [hex, List.length_append, List.length_replicate]
  omega

/-- A number of more digits than the width is written whole. -/
theorem length_hex_wide (long : 16 ^ k ≤ n) (short : n < 16 ^ (k + 1)) (narrow : width ≤ k) :
    (hex width n).length = k + 1 := by
  have few := (Nat.length_toDigits_le_iff (n := n) (by decide : 1 < 16) k.succ_pos).mpr short
  have many : k < (Nat.toDigits 16 n).length := by
    cases k with
    | zero => exact Nat.length_toDigits_pos
    | succ k =>
      rw [← Nat.not_le, Nat.length_toDigits_le_iff (by decide) k.succ_pos]
      exact Nat.not_lt.mpr long
  rw [hex, List.length_append, List.length_replicate]
  omega

theorem toDigits_mem (inside : c ∈ Nat.toDigits 16 n) : ∃ d < 16, c = Nat.digitChar d := by
  induction n using Nat.strongRecOn with
  | ind n ih =>
    rw [Nat.toDigits_eq_if (by decide)] at inside
    split at inside
    · next small => exact ⟨n, small, List.mem_singleton.mp inside⟩
    · next large =>
      obtain front | last := List.mem_append.mp inside
      · exact ih (n / 16) (by omega) front
      · exact ⟨n % 16, Nat.mod_lt n (by decide), List.mem_singleton.mp last⟩

/-- Only digits are written. -/
theorem hex_mem (inside : c ∈ hex width n) : ∃ d < 16, c = Nat.digitChar d := by
  obtain zero | digit := List.mem_append.mp inside
  · exact ⟨0, by decide, (List.mem_replicate.mp zero).2⟩
  · exact toDigits_mem digit

theorem hex_not_mem (other : ∀ d < 16, Nat.digitChar d ≠ c) : c ∉ hex width n := by
  intro inside
  obtain ⟨d, small, same⟩ := hex_mem inside
  exact other d small same.symm

/-- A byte as two digits in front of others. -/
theorem readBytes_hex (b : UInt8) (rest : List Char) :
    readBytes (hex 2 b.toNat ++ rest) = (readBytes rest).map (b :: ·) := by
  have length : (hex 2 b.toNat).length = 2 := length_hex b.toNat_lt (by decide)
  obtain ⟨high, low, same⟩ := List.length_eq_two.mp length
  have value := readHex_hex 2 b.toNat
  rw [same] at value
  rw [same, List.cons_append, List.cons_append, List.nil_append, readBytes, value]
  cases readBytes rest with
  | none => rfl
  | some bytes => simp

theorem length_of_readBytes : ∀ {text : List Char} {bytes : List UInt8},
    readBytes text = some bytes → text.length = 2 * bytes.length
  | [], _, read => by
    cases read
    rfl
  | [_], _, read => nomatch read
  | high :: low :: rest, bytes, read => by
    rw [readBytes] at read
    obtain ⟨n, -, read⟩ := Option.bind_eq_some_iff.mp read
    obtain ⟨later, found, same⟩ := Option.bind_eq_some_iff.mp read
    cases same
    have shorter := length_of_readBytes found
    simp only [List.length_cons]
    omega

end Comp304.Library.Hex
