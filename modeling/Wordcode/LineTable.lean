/-
# Line tables

A line table gives the source line of every code unit, as pairs of a distance
in bytes and one in lines. In the `lnotab` format a pair stands at every change
of line, and in the range format pairs are consecutive address ranges, each
with its line or, when the distance in lines is `-128`, with none.

Decoding turns the table into one line per code unit: every pair covers the
units that begin in its range of addresses. Encoding takes the first unit and
the line of every instruction, and splits distances that do not fit a byte:
`lnotab` writes bytes first in steps of 255, then lines in steps of 127 or
-128, and the range format writes lines first in steps of 127 or -127, then
bytes in steps of 254.

Key definitions: `LineTable.decode`, `LineTable.encode`.
Key theorems: `LineTable.length_cover`.
-/
import Wordcode.InstructionSet
import Wordcode.Record
import Wordcode.Error

namespace Wordcode

namespace LineTable

/-- The line of a code unit, if it has one. -/
abbrev Line := Option Nat

/-- The distance in lines that marks a range without line. -/
def noLine : Int8 := -128

/-! ### Decoding -/

/-- How many code units begin in the addresses from `start` up to `stop`. -/
def unitsIn (start stop : Nat) : Nat := (stop + 1) / 2 - (start + 1) / 2

/-- The lines of the units that begin in the addresses from `start` up to
`stop`, for table entry `position`. The range has to end within `size` bytes
and the line has to be a 32 bit number. -/
def cover (size start stop : Nat) (line : Option Int) (position : Nat) :
    Except DecodeError (List Line) :=
  if size < stop then .error (.malformedLineTable position)
  else match line with
    | none => .ok (List.replicate (unitsIn start stop) none)
    | some l =>
      if 0 ≤ l ∧ l < UInt32.size then .ok (List.replicate (unitsIn start stop) (some l.toNat))
      else .error (.malformedLineTable position)

theorem length_cover {size start stop position : Nat} {line : Option Int} {lines : List Line}
    (h : cover size start stop line position = .ok lines) :
    lines.length = unitsIn start stop ∧ stop ≤ size := by
  unfold cover at h
  split at h
  · cases h
  · split at h
    · injection h with h; subst h; simp; omega
    · split at h
      · injection h with h; subst h; simp; omega
      · cases h

/-- The lines of an `lnotab` from address `start` on, where `line` is current. An
entry moves the address first and the line then, and the last line reaches to
the end of the code. -/
def decodeLnotab (size : Nat) : List LineDelta → (start : Nat) → (line : Int) →
    (position : Nat) → Except DecodeError (List Line)
  | [], start, line, position => cover size start size (some line) position
  | e :: rest, start, line, position =>
    if e.bytes = 0 then decodeLnotab size rest start (line + e.lines.toInt) (position + 1)
    else do
      let stop := start + e.bytes.toNat
      let here ← cover size start stop (some line) position
      let later ← decodeLnotab size rest stop (line + e.lines.toInt) (position + 1)
      return here ++ later

/-- The lines of a range table from address `start` on, where `line` is current.
An entry moves the line first, unless it has none. -/
def decodeRanges (size : Nat) : List LineDelta → (start : Nat) → (line : Int) →
    (position : Nat) → Except DecodeError (List Line)
  | [], _, _, _ => .ok []
  | e :: rest, start, line, position => do
    let stop := start + e.bytes.toNat
    let line' := if e.lines = noLine then line else line + e.lines.toInt
    let here ← cover size start stop (if e.lines = noLine then none else some line') position
    let later ← decodeRanges size rest stop line' (position + 1)
    return here ++ later

/-- The line of each of `units` code units; those a range table does not reach
have none. -/
def decode (format : LineFormat) (table : List UInt8) (firstLine units : Nat) :
    Except DecodeError (List Line) :=
  match Record.readAll 2 table with
  | .error _ => .error (.malformedLineTable (table.length / 2))
  | .ok pairs =>
    let entries := pairs.map LineDelta.ofPair
    match format with
    | .lnotab => decodeLnotab (units * 2) entries 0 firstLine 0
    | .ranges => do
      let lines ← decodeRanges (units * 2) entries 0 firstLine 0
      return lines ++ List.replicate (units - lines.length) none

/-! ### Encoding -/

/-- The `lnotab` entries for a change of line by `lines`, `bytes` after the last
one. -/
def lnotabEntries (bytes : Nat) (lines : Int) : List LineDelta :=
  let jumps := if bytes ≤ 255 then 0 else bytes / 255
  let rest := (bytes - jumps * 255).toUInt8
  let far := List.replicate jumps ⟨255, 0⟩
  if -128 ≤ lines ∧ lines ≤ 127 then far ++ [⟨rest, lines.toInt8⟩]
  else
    let step : Int := if lines < 0 then -128 else 127
    let count := lines.natAbs / step.natAbs
    far ++ ⟨rest, step.toInt8⟩ :: List.replicate (count - 1) ⟨0, step.toInt8⟩ ++
      [⟨0, (lines - count * step).toInt8⟩]

/-- The `lnotab` of instructions given by first unit and line. Instructions
without a line keep the line before them. -/
def encodeLnotab : List (Nat × Line) → (lastLine lastUnit : Nat) → List LineDelta
  | [], _, _ => []
  | (_, none) :: rest, lastLine, lastUnit => encodeLnotab rest lastLine lastUnit
  | (unit, some line) :: rest, lastLine, lastUnit =>
    if line = lastLine then encodeLnotab rest lastLine lastUnit
    else lnotabEntries ((unit - lastUnit) * 2) (line - lastLine) ++ encodeLnotab rest line unit

/-- The range entries for a range of `bytes` bytes whose line is `lines` away from
that of the last range with one, or which has no line. -/
def rangeEntries (bytes : Nat) (lines : Option Int) : List LineDelta :=
  let step : Int := match lines with
    | some d => if d < 0 then -127 else 127
    | none => 0
  let leaps : Nat := match lines with
    | some d => (d.natAbs - 1) / 127
    | none => 0
  let first : Int8 := match lines with
    | some d => (d - leaps * step).toInt8
    | none => noLine
  let next : Int8 := if lines.isNone then noLine else 0
  let jumps := (bytes - 1) / 254
  let rest := (bytes - jumps * 254).toUInt8
  List.replicate leaps ⟨0, step.toInt8⟩ ++
    (if jumps = 0 then [⟨rest, first⟩]
    else ⟨254, first⟩ :: List.replicate (jumps - 1) ⟨254, next⟩ ++ [⟨rest, next⟩])

/-- A range that is still open: its first unit, its line, and the line of the
last closed range that had one. -/
structure OpenRange where
  start : Nat
  line : Line
  lastLine : Nat

/-- Closes the range before `unit`; a range of no units leaves no trace. -/
def OpenRange.close (r : OpenRange) (unit : Nat) : List LineDelta × OpenRange :=
  let bytes := (unit - r.start) * 2
  if bytes = 0 then ([], r)
  else match r.line with
    | none => (rangeEntries bytes none, { r with start := unit })
    | some l =>
      (rangeEntries bytes (some (l - r.lastLine)), { r with start := unit, lastLine := l })

/-- The range table of instructions given by first unit and line, with the range
`r` open. -/
def encodeRanges (units : Nat) : List (Nat × Line) → OpenRange → List LineDelta
  | [], r => (r.close units).1
  | (unit, line) :: rest, r =>
    if line = r.line then encodeRanges units rest r
    else
      let (entries, r') := r.close unit
      entries ++ encodeRanges units rest { r' with line }

/-- The line table of instructions given by first unit and line, in order, for
code of `units` units. -/
def encode (format : LineFormat) (firstLine : Nat) (runs : List (Nat × Line)) (units : Nat) :
    List UInt8 :=
  let entries := match format with
    | .lnotab => encodeLnotab runs firstLine 0
    | .ranges => encodeRanges units runs ⟨0, some firstLine, firstLine⟩
  entries.flatMap LineDelta.toBytes

end LineTable

end Wordcode
