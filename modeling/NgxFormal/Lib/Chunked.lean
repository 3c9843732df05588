import Mathlib.Algebra.Order.Ring.Int
import Mathlib.Data.List.Basic

/-! The chunked coding: its decoder, and what the decoder makes of one chunk. -/

namespace NgxFormal.Lib

def hexDigit (byte : UInt8) : Option Nat :=
  if 48 ≤ byte ∧ byte ≤ 57 then some (byte.toNat - 48)
  else if 97 ≤ byte ∧ byte ≤ 102 then some (byte.toNat - 87)
  else if 65 ≤ byte ∧ byte ≤ 70 then some (byte.toNat - 55)
  else none

def crlf : List UInt8 := [13, 10]

/-- A size line: hexadecimal digits, at least one, and the end of the line. The number read so far
is `none` before the first digit. -/
def readSize : Option Nat → List UInt8 → Option (Nat × List UInt8)
  | _, [] => none
  | read, byte :: rest =>
    match hexDigit byte with
    | some digit => readSize (some (read.getD 0 * 16 + digit)) rest
    | none =>
      if (byte :: rest).take 2 = crlf then read.map fun n => (n, rest.drop 1) else none

/-- The data of a coded text, and whether the text ends in the last chunk. Each turn reads at least
one byte. -/
def decodeLoop : Nat → List UInt8 → Option (List UInt8 × Bool)
  | _, [] => some ([], false)
  | 0, _ :: _ => none
  | turns + 1, text =>
    (readSize none text).bind fun (n, rest) =>
      if n = 0 then if rest = crlf then some ([], true) else none
      else if (rest.drop n).take 2 = crlf then
        (decodeLoop turns (rest.drop (n + 2))).map fun (data, ended) => (rest.take n ++ data, ended)
      else none

def decodeChunked (text : List UInt8) : Option (List UInt8 × Bool) := decodeLoop text.length text

section Chunk

variable {line data rest : List UInt8} {turns : Nat}

/-- A line that is read as the number `n`. -/
def SizeLine (line : List UInt8) (n : Nat) : Prop :=
  ∀ rest, readSize none (line ++ rest) = some (n, rest)

theorem SizeLine.ne_nil {n : Nat} (reads : SizeLine line n) : line ≠ [] := by
  rintro rfl
  have absurd := reads []
  cases absurd

theorem decodeLoop_cons (some_text : line ≠ []) :
    decodeLoop (turns + 1) (line ++ rest) =
      (readSize none (line ++ rest)).bind fun (n, rest) =>
        if n = 0 then if rest = crlf then some ([], true) else none
        else if (rest.drop n).take 2 = crlf then
          (decodeLoop turns (rest.drop (n + 2))).map fun (data, ended) => (rest.take n ++ data, ended)
        else none := by
  cases line with
  | nil => exact (some_text rfl).elim
  | cons byte line => rfl

theorem decodeLoop_chunk (reads : SizeLine line data.length) (some_data : data ≠ []) :
    decodeLoop (turns + 1) (line ++ data ++ crlf ++ rest) =
      (decodeLoop turns rest).map fun (later, ended) => (data ++ later, ended) := by
  have positive : data.length ≠ 0 := by simpa using some_data
  have shape : line ++ data ++ crlf ++ rest = line ++ (data ++ (crlf ++ rest)) := by
    simp only [List.append_assoc]
  have ends : ((data ++ (crlf ++ rest)).drop data.length).take 2 = crlf := by
    rw [List.drop_left]
    rfl
  have behind : (data ++ (crlf ++ rest)).drop (data.length + 2) = rest := by
    rw [← List.drop_drop, List.drop_left]
    rfl
  rw [shape, decodeLoop_cons reads.ne_nil, reads, Option.bind_some]
  simp only
  rw [if_neg positive, if_pos ends, behind, List.take_left]

theorem decodeLoop_last (reads : SizeLine line 0) :
    decodeLoop (turns + 1) (line ++ crlf) = some ([], true) := by
  rw [decodeLoop_cons reads.ne_nil, reads]
  rfl

end Chunk

end NgxFormal.Lib
