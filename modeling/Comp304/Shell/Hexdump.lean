import Comp304.Library.Hex
import Comp304.Library.Lp64
import Comp304.Library.CString

/-! The hex dump of the command `xdd`. Each character is passed to `printf` as an
`int`, so the ones from 0x80 on are printed as negative numbers, and the address
of a row is an `int` too. -/
namespace Comp304.Shell
open Library Library.CString Library.Budget Library.Hex

/-- The characters of a C string. -/
abbrev Text := {bytes : List UInt8 // 0 ∉ bytes}

/-- What `%x` makes of a `char`, which is signed. -/
def promoted (c : UInt8) : Nat := (Int.bmod c.toNat 256 % 2 ^ 32).toNat

/-- `input[index]`, with the terminator behind the text. -/
def charAt (input : List UInt8) (index : Int) : Except Fault UInt8 :=
  if 0 ≤ index then
    match (input ++ [0])[index.toNat]? with
    | some c => .ok c
    | none => .error .outside
  else .error .outside

/-- What is printed of a row from the character `j` on, with so many left. -/
def charLoop (input : List UInt8) (groupSize start : Int) : Nat → Nat → Except Fault (List Char)
  | _, 0 => .ok []
  | j, left + 1 => do
    let c ← charAt input (Lp64.addInt start j)
    if c = 0 then return []
    else
      let rest ← charLoop input groupSize start (j + 1) left
      return hex 2 (promoted c) ++ (if (j + 1 : Int).tmod groupSize = 0 then [' '] else []) ++ rest

/-- One row. The `int` that is the address is printed as an `unsigned`. -/
def printRow (input : List UInt8) (groupSize : Int) (i : Nat) : Except Fault (List Char) := do
  let start := Lp64.toInt (i * 16)
  let row ← charLoop input groupSize start 0 16
  return hex 8 (start % 2 ^ 32).toNat ++ [':', ' '] ++ row ++ ['\n']

/-- `print_xdd`. The counter of the rows is an `int`; an address leaves the range of
`int` long before it does. -/
def printXdd (input : Text) (groupSize : {g : Int // g ≠ 0}) : Except Fault (List Char) := do
  let rows ← (List.range (input.val.length / 16 + 1)).mapM (printRow input.val groupSize.val)
  return rows.flatten

/-! ### Reading a dump -/

/-- The address and the bytes of a row. -/
def readRow (row : List Char) : Option (Nat × List UInt8) :=
  match row.drop 8 with
  | ':' :: ' ' :: rest => do
    let address ← readHex (row.take 8)
    let bytes ← readBytes (rest.filter (· ≠ ' '))
    return (address, bytes)
  | _ => none

def readDump (dump : List Char) : Option (List (Nat × List UInt8)) :=
  (dump.splitOn '\n').dropLast.mapM readRow

/-- The rows begin at 0, 16, 32 and so on, and hold the input, 16 bytes each but for
the last one. -/
structure RowsOf (input : List UInt8) (rows : List (Nat × List UInt8)) : Prop where
  addresses : rows.map Prod.fst = (List.range rows.length).map (16 * ·)
  bytes : rows.flatMap Prod.snd = input
  full : ∀ row ∈ rows.dropLast, row.2.length = 16
  last : ∀ row ∈ rows.getLast?, row.2.length < 16

def Decodable (input : Text) (groupSize : {g : Int // g ≠ 0}) : Prop :=
  ∃ dump rows, printXdd input groupSize = .ok dump ∧ readDump dump = some rows ∧
    RowsOf input.val rows

/-! ### What is printed -/

/-- The characters of a row from `j` on, as they are printed. -/
def cells (groupSize : Int) : Nat → List UInt8 → List Char
  | _, [] => []
  | j, c :: rest =>
    hex 2 (promoted c) ++ (if (j + 1 : Int).tmod groupSize = 0 then [' '] else []) ++
      cells groupSize (j + 1) rest

/-- The digits of some bytes. -/
def digits (bytes : List UInt8) : List Char := bytes.flatMap fun c => hex 2 (promoted c)

theorem cells_filter (groupSize : Int) (j : Nat) (bytes : List UInt8) :
    (cells groupSize j bytes).filter (· ≠ ' ') = digits bytes := by
  have plain : ∀ n, (hex 2 n).filter (· ≠ ' ') = hex 2 n := fun n => by
    rw [List.filter_eq_self]
    intro c inside
    rw [decide_eq_true_eq]
    rintro rfl
    exact hex_not_mem (by decide) inside
  induction bytes generalizing j with
  | nil => rfl
  | cons c rest ih =>
    rw [cells, List.filter_append, List.filter_append, plain, ih]
    split
    · simp [digits]
    · simp [digits]

theorem cells_line (groupSize : Int) (j : Nat) (bytes : List UInt8) :
    '\n' ∉ cells groupSize j bytes := by
  induction bytes generalizing j with
  | nil => exact nofun
  | cons c rest ih =>
    simp only [cells, List.mem_append, not_or]
    refine ⟨⟨hex_not_mem (by decide), ?_⟩, ih (j + 1)⟩
    split
    · decide
    · exact nofun

section
variable {input : List UInt8}

theorem charAt_inside (inside : k < input.length) : charAt input (k : Int) = .ok input[k] := by
  rw [charAt, if_pos (Int.natCast_nonneg k), Int.toNat_natCast,
    List.getElem?_append_left inside, List.getElem?_eq_getElem inside]

theorem charAt_end (input : List UInt8) : charAt input (input.length : Int) = .ok 0 := by
  rw [charAt, if_pos (Int.natCast_nonneg _), Int.toNat_natCast, List.getElem?_concat_length]

theorem charLoop_cells (whole : 0 ∉ input) (groupSize : Int) (start j left : Nat)
    (small : start + (j + left) ≤ 2 ^ 31) (inside : start + j ≤ input.length) :
    charLoop input groupSize start j left =
      .ok (cells groupSize j ((input.drop (start + j)).take left)) := by
  induction left generalizing j with
  | zero => simp [charLoop, cells]
  | succ left ih =>
    have address : Lp64.addInt start j = ((start + j : Nat) : Int) := by
      rw [Lp64.addInt]
      exact Int.bmod_eq_of_le (by omega) (by omega)
    rw [charLoop, address]
    obtain before | last := Nat.lt_or_eq_of_le inside
    · have other : input[start + j] ≠ 0 := fun zero => whole (zero ▸ List.getElem_mem before)
      rw [charAt_inside before, ok_bind, if_neg other, ih (j + 1) (by omega) before, ok_bind,
        List.drop_eq_getElem_cons before, List.take_succ_cons, cells, ← Nat.add_assoc]
      rfl
    · rw [last, charAt_end, ok_bind, if_pos rfl, List.drop_length, List.take_nil]
      rfl

/-- The bytes of a row. -/
def chunk (input : List UInt8) (i : Nat) : List UInt8 := (input.drop (16 * i)).take 16

/-- A row without its end. -/
def rowText (input : List UInt8) (groupSize : Int) (i : Nat) : List Char :=
  hex 8 (16 * i) ++ ':' :: ' ' :: cells groupSize 0 (chunk input i)

theorem printRow_eq (whole : 0 ∉ input) (groupSize : Int) (inside : 16 * i ≤ input.length)
    (small : input.length < 2 ^ 31) :
    printRow input groupSize i = .ok (rowText input groupSize i ++ ['\n']) := by
  have start : Lp64.toInt (i * 16) = ((16 * i : Nat) : Int) := by
    rw [Nat.mul_comm]
    exact Lp64.toInt_of_lt (by omega)
  have address : (((16 * i : Nat) : Int) % 2 ^ 32).toNat = 16 * i := by omega
  rw [printRow]
  simp only [start, address]
  rw [charLoop_cells whole groupSize (16 * i) 0 16 (by omega) inside, ok_bind]
  simp [rowText, chunk, pure, Except.pure]

/-- Beyond the range of `int` there is no row. -/
theorem printRow_beyond (input : List UInt8) (groupSize : Int) :
    printRow input groupSize (2 ^ 27) = .error .outside := by
  have start : Lp64.toInt (2 ^ 27 * 16) = -2 ^ 31 := by decide
  have address : Lp64.addInt (-2 ^ 31) (0 : Nat) = -2 ^ 31 := by decide
  rw [printRow]
  simp only [start, charLoop, address]
  rfl

end

/-- What is printed, row by row, of a text that is not too long. -/
theorem printXdd_eq (input : Text) (groupSize : {g : Int // g ≠ 0})
    (small : input.val.length < 2 ^ 31) :
    printXdd input groupSize = .ok ((List.range (input.val.length / 16 + 1)).flatMap fun i =>
      rowText input.val groupSize.val i ++ ['\n']) := by
  have each : ∀ i ∈ List.range (input.val.length / 16 + 1), printRow input.val groupSize.val i =
      .ok (rowText input.val groupSize.val i ++ ['\n']) := by
    intro i inside
    rw [List.mem_range] at inside
    exact printRow_eq input.property groupSize.val (by omega) small
  rw [printXdd, mapM_ok each]
  rfl

theorem printXdd_small {input : Text} {groupSize : {g : Int // g ≠ 0}}
    (ran : printXdd input groupSize = .ok dump) : input.val.length < 2 ^ 31 := by
  rw [printXdd] at ran
  obtain ⟨rows, printed, -⟩ := bind_eq_ok.mp ran
  by_contra large
  obtain ⟨row, there⟩ := mapM_returns printed (2 ^ 27) (by
    rw [List.mem_range]
    omega)
  rw [printRow_beyond] at there
  cases there

/-! ### What is read back -/

theorem splitOn_rows (rows : List (List Char)) (line : ∀ row ∈ rows, '\n' ∉ row) :
    (rows.flatMap fun row => row ++ ['\n']).splitOn '\n' = rows ++ [[]] := by
  induction rows with
  | nil => rfl
  | cons row rows ih =>
    obtain ⟨first, line⟩ := List.forall_mem_cons.mp line
    rw [List.flatMap_cons, List.append_assoc, List.singleton_append, List.splitOn,
      List.splitOnP_append_cons _ _ (by simp), List.splitOnP_eq_singleton]
    · exact congrArg (row :: ·) (ih line)
    · intro c inside
      rw [beq_eq_false_iff_ne]
      rintro rfl
      exact first inside

theorem rowText_line (input : List UInt8) (groupSize : Int) (i : Nat) :
    '\n' ∉ rowText input groupSize i := by
  simp only [rowText, List.mem_append, List.mem_cons, not_or]
  exact ⟨hex_not_mem (by decide), by decide, by decide, cells_line groupSize 0 _⟩

theorem readDump_rows (input : List UInt8) (groupSize : Int) (count : Nat) :
    readDump ((List.range count).flatMap fun i => rowText input groupSize i ++ ['\n']) =
      ((List.range count).map (rowText input groupSize)).mapM readRow := by
  have rows : ((List.range count).flatMap fun i => rowText input groupSize i ++ ['\n']) =
      ((List.range count).map (rowText input groupSize)).flatMap fun row => row ++ ['\n'] := by
    rw [List.flatMap_map]
  rw [readDump, rows, splitOn_rows, List.dropLast_concat]
  intro row listed
  obtain ⟨i, -, rfl⟩ := List.mem_map.mp listed
  exact rowText_line input groupSize i

theorem readRow_rowText (input : List UInt8) (groupSize : Int) (small : 16 * i < 2 ^ 31) :
    readRow (rowText input groupSize i) =
      (readBytes (digits (chunk input i))).map fun bytes => (16 * i, bytes) := by
  have width : (hex 8 (16 * i)).length = 8 := length_hex (by omega) (by decide)
  have front : (rowText input groupSize i).take 8 = hex 8 (16 * i) := by
    rw [rowText, List.take_left' width]
  have behind : (rowText input groupSize i).drop 8 = ':' :: ' ' :: cells groupSize 0 (chunk input i) := by
    rw [rowText, List.drop_left' width]
  rw [readRow, behind, front]
  simp only [readHex_hex, cells_filter]
  cases readBytes (digits (chunk input i)) with
  | none => rfl
  | some bytes => rfl

theorem promoted_ascii (ascii : c < 128) : promoted c = c.toNat := by
  have small : c.toNat < 128 := UInt8.lt_iff_toNat_lt.mp ascii
  unfold promoted
  generalize c.toNat = n at small
  rewrite [Int.bmod_eq_of_le (by omega) (by omega)]
  omega

theorem readBytes_digits {bytes : List UInt8} (ascii : ∀ c ∈ bytes, c < 128) :
    readBytes (digits bytes) = some bytes := by
  induction bytes with
  | nil => rfl
  | cons c bytes ih =>
    obtain ⟨first, ascii⟩ := List.forall_mem_cons.mp ascii
    have rest := ih ascii
    rw [digits] at rest ⊢
    rw [List.flatMap_cons, promoted_ascii first, readBytes_hex, rest]
    rfl

/-- A character from 0x80 on is printed with eight digits. -/
theorem length_hex_promoted (c : UInt8) :
    (hex 2 (promoted c)).length = if c < 128 then 2 else 8 := by
  split
  · next ascii =>
    rw [promoted_ascii ascii]
    exact length_hex c.toNat_lt (by decide)
  · next wide =>
    have large : ¬ c.toNat < 128 := fun small => wide (UInt8.lt_iff_toNat_lt.mpr small)
    have small := c.toNat_lt
    unfold promoted
    generalize c.toNat = n at large small
    have value : (Int.bmod n 256 % 2 ^ 32).toNat = 2 ^ 32 - 256 + n := by
      rewrite [Int.bmod_def, if_neg (by omega)]
      omega
    rewrite [value]
    exact length_hex_wide (by omega) (by omega) (by decide)

theorem length_digits (bytes : List UInt8) : 2 * bytes.length ≤ (digits bytes).length ∧
    ((digits bytes).length = 2 * bytes.length ↔ ∀ c ∈ bytes, c < 128) := by
  induction bytes with
  | nil => simp [digits]
  | cons c bytes ih =>
    have first := length_hex_promoted c
    rw [digits] at ih ⊢
    rw [List.flatMap_cons, List.length_append, first, List.length_cons, List.forall_mem_cons]
    split
    · next ascii =>
      rw [← ih.2]
      simp only [ascii, true_and]
      omega
    · next wide =>
      simp only [wide, false_and, iff_false]
      omega

/-! ### The rows of the input -/

theorem flatMap_chunk (input : List UInt8) (count : Nat) :
    (List.range count).flatMap (chunk input) = input.take (16 * count) := by
  induction count with
  | zero => rfl
  | succ count ih =>
    rw [List.range_succ, List.flatMap_append, ih, List.flatMap_singleton, chunk, Nat.mul_succ,
      List.take_add]

/-- The rows the input has. -/
def rowsOf (input : List UInt8) : List (Nat × List UInt8) :=
  (List.range (input.length / 16 + 1)).map fun i => (16 * i, chunk input i)

theorem rowsOf_spec (input : List UInt8) : RowsOf input (rowsOf input) where
  addresses := by simp [rowsOf]
  bytes := by
    have all := flatMap_chunk input (input.length / 16 + 1)
    rw [List.take_of_length_le (by omega)] at all
    rw [rowsOf, List.flatMap_map]
    exact all
  full := by
    rw [rowsOf, List.range_succ, List.map_append, List.map_singleton, List.dropLast_concat]
    intro row listed
    obtain ⟨i, inside, rfl⟩ := List.mem_map.mp listed
    rw [List.mem_range] at inside
    rw [chunk, List.length_take, List.length_drop]
    omega
  last := by
    rw [rowsOf, List.range_succ, List.map_append, List.map_singleton, List.getLast?_concat]
    intro row same
    obtain rfl := Option.mem_some_iff.mp same
    rw [chunk, List.length_take, List.length_drop]
    omega

theorem mapM_readRow (input : List UInt8) (groupSize : Int) (rows : List Nat)
    (small : ∀ i ∈ rows, 16 * i < 2 ^ 31) {read : List (Nat × List UInt8)}
    (ran : (rows.map (rowText input groupSize)).mapM readRow = some read) :
    (digits (rows.flatMap (chunk input))).length = 2 * (read.flatMap Prod.snd).length := by
  induction rows generalizing read with
  | nil =>
    cases ran
    rfl
  | cons i rows ih =>
    obtain ⟨first, small⟩ := List.forall_mem_cons.mp small
    rw [List.map_cons, List.mapM_cons, readRow_rowText input groupSize first] at ran
    obtain ⟨row, one, ran⟩ := Option.bind_eq_some_iff.mp ran
    obtain ⟨later, rest, same⟩ := Option.bind_eq_some_iff.mp ran
    cases same
    obtain ⟨bytes, taken, rfl⟩ := Option.map_eq_some_iff.mp one
    have behind := ih small rest
    have front := length_of_readBytes taken
    simp only [digits, List.flatMap_cons, List.flatMap_append, List.length_append] at behind front ⊢
    omega

theorem mapM_readRow_ascii (input : List UInt8) (groupSize : Int) (rows : List Nat)
    (small : ∀ i ∈ rows, 16 * i < 2 ^ 31) (ascii : ∀ i ∈ rows, ∀ c ∈ chunk input i, c < 128) :
    (rows.map (rowText input groupSize)).mapM readRow =
      some (rows.map fun i => (16 * i, chunk input i)) := by
  induction rows with
  | nil => rfl
  | cons i rows ih =>
    obtain ⟨first, small⟩ := List.forall_mem_cons.mp small
    obtain ⟨here, ascii⟩ := List.forall_mem_cons.mp ascii
    rw [List.map_cons, List.mapM_cons, readRow_rowText input groupSize first, readBytes_digits here,
      ih small ascii]
    rfl

/-- The dump can be read back exactly when no character is from 0x80 on and the
addresses are in the range of `int`. -/
theorem dump_decodes_iff (input : Text) (groupSize : {g : Int // g ≠ 0}) :
    Decodable input groupSize ↔ (∀ c ∈ input.val, c < 128) ∧ input.val.length < 2 ^ 31 := by
  have all := flatMap_chunk input.val (input.val.length / 16 + 1)
  rw [List.take_of_length_le (by omega)] at all
  constructor
  · rintro ⟨dump, rows, printed, read, spec⟩
    have small := printXdd_small printed
    rw [printXdd_eq input groupSize small] at printed
    cases printed
    rw [readDump_rows] at read
    have length := mapM_readRow input.val groupSize.val _ (fun i inside => by
      rw [List.mem_range] at inside
      omega) read
    rw [all, spec.bytes] at length
    exact ⟨(length_digits input.val).2.mp length, small⟩
  · rintro ⟨ascii, small⟩
    refine ⟨_, rowsOf input.val, printXdd_eq input groupSize small, ?_, rowsOf_spec input.val⟩
    rw [readDump_rows, rowsOf]
    refine mapM_readRow_ascii input.val groupSize.val _ (fun i inside => ?_) fun i inside c listed => ?_
    · rw [List.mem_range] at inside
      omega
    · exact ascii c (List.mem_of_mem_drop (List.mem_of_mem_take listed))

/-- The one character 0xe9 is printed as `ffffffe9`, which reads as four bytes. -/
theorem wide_char_is_misread : ¬ Decodable ⟨[0xe9], by decide⟩ ⟨2, by decide⟩ := by
  rintro ⟨dump, rows, printed, read, spec⟩
  have text : printXdd ⟨[0xe9], by decide⟩ ⟨2, by decide⟩ = .ok "00000000: ffffffe9\n".toList := by
    decide +kernel
  cases text.symm.trans printed
  have bytes : readDump "00000000: ffffffe9\n".toList = some [(0, [0xff, 0xff, 0xff, 0xe9])] := by
    decide +kernel
  cases bytes.symm.trans read
  exact absurd spec.bytes (by decide)

end Comp304.Shell
