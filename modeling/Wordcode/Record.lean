/-
# Records of two bytes

Code and line tables are sequences of two-byte records without length or
padding. A reader first checks that the input is a whole number of records of
a given width, and then reads pairs of bytes until the input ends.

Key definitions: `Record.readPairs`, `Record.readAll`, `Word`, `LineDelta`.
Key theorems: `Word.ofPair_toBytes`, `Record.readPairs_flatMap`,
`Record.readAll_two_eq_ok_iff`.
-/
import Wordcode.Opcode

namespace Wordcode

/-- A code unit: an opcode and the low digit of its operand. -/
structure Word where
  opcode : Opcode
  arg : UInt8
deriving DecidableEq, Inhabited

/-- A record of a line table: a distance in bytes and one in lines. -/
structure LineDelta where
  bytes : UInt8
  lines : Int8
deriving DecidableEq, Inhabited

/-- Why records cannot be read. -/
inductive RecordError where
  /-- The input is not a whole number of records. -/
  | partialRecord
  /-- The input ends inside a record. -/
  | endsEarly
deriving DecidableEq

def RecordError.message : RecordError → String
  | .partialRecord => "input is not a whole number of records"
  | .endsEarly => "failed to fill whole buffer"

namespace Record

/-- The pairs of bytes in the input; none if a byte is left over. -/
def readPairs : List UInt8 → Option (List (UInt8 × UInt8))
  | [] => some []
  | [_] => none
  | a :: b :: rest => (readPairs rest).map ((a, b) :: ·)

/-- Reads pairs of bytes from an input that is a multiple of `width` long. -/
def readAll (width : Nat) (bytes : List UInt8) : Except RecordError (List (UInt8 × UInt8)) :=
  if bytes.length % width ≠ 0 then .error .partialRecord
  else match readPairs bytes with
    | some pairs => .ok pairs
    | none => .error .endsEarly

theorem readPairs_flatMap : ∀ ps : List (UInt8 × UInt8),
    readPairs (ps.flatMap fun p => [p.1, p.2]) = some ps
  | [] => rfl
  | (a, b) :: ps => by simp [readPairs, readPairs_flatMap ps]

/-- Every input of even length is a sequence of pairs. -/
theorem readPairs_isSome : ∀ bytes : List UInt8, (readPairs bytes).isSome = (bytes.length % 2 = 0)
  | [] => by simp [readPairs]
  | [_] => by simp [readPairs]
  | a :: b :: rest => by
    rw [readPairs, Option.isSome_map, readPairs_isSome rest]
    simp only [List.length_cons, eq_iff_iff]
    omega

/-- Reading pairs of bytes takes nothing away. -/
theorem flatMap_of_readPairs : ∀ {bytes : List UInt8} {pairs : List (UInt8 × UInt8)},
    readPairs bytes = some pairs → (pairs.flatMap fun p => [p.1, p.2]) = bytes
  | [], pairs, h => by
    simp only [readPairs, Option.some.injEq] at h
    rw [← h, List.flatMap_nil]
  | [_], pairs, h => by
    simp only [readPairs, reduceCtorEq] at h
  | a :: b :: rest, pairs, h => by
    simp only [readPairs, Option.map_eq_some_iff] at h
    obtain ⟨later, hlater, rfl⟩ := h
    rw [List.flatMap_cons, flatMap_of_readPairs hlater]
    rfl

/-- A stream can be read in units of two bytes exactly if it is the bytes of such units. -/
theorem readAll_two_eq_ok_iff {bytes : List UInt8} {pairs : List (UInt8 × UInt8)} :
    readAll 2 bytes = .ok pairs ↔ bytes = pairs.flatMap fun p => [p.1, p.2] := by
  constructor
  · intro h
    unfold readAll at h
    split at h
    · cases h
    · split at h
      · rename_i pairs' hp
        obtain rfl : pairs' = pairs := by simpa using h
        exact (flatMap_of_readPairs hp).symm
      · cases h
  · rintro rfl
    have heven : (pairs.flatMap fun p => [p.1, p.2]).length % 2 = 0 := by
      rw [← readPairs_isSome, readPairs_flatMap]
      rfl
    rw [readAll, if_neg (by rw [heven]; exact fun h => h rfl), readPairs_flatMap]

end Record

/-- The bytes of a code unit. -/
def Word.toBytes (w : Word) : List UInt8 := [w.opcode.number, w.arg]

/-- The code unit in a pair of bytes. -/
def Word.ofPair (p : UInt8 × UInt8) : Word := ⟨⟨p.1⟩, p.2⟩

/-- The bytes of a line table record. -/
def LineDelta.toBytes (d : LineDelta) : List UInt8 := [d.bytes, d.lines.toUInt8]

/-- The line table record in a pair of bytes. -/
def LineDelta.ofPair (p : UInt8 × UInt8) : LineDelta := ⟨p.1, p.2.toInt8⟩

theorem Word.ofPair_toBytes (p : UInt8 × UInt8) : (Word.ofPair p).toBytes = [p.1, p.2] := rfl

theorem LineDelta.ofPair_toBytes (p : UInt8 × UInt8) :
    (LineDelta.ofPair p).toBytes = [p.1, p.2] := rfl

end Wordcode
