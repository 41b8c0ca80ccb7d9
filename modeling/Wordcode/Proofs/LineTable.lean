/-
# Line tables read back

Runs of code units with one line each are encoded, and what is read from the table
is the line of each unit (`LineTable.linesFrom`): that of the run it belongs to, and in
the `lnotab` format, where a run without a line says nothing, that of the last run
that has one. Distances that do not fit a byte are split, which adds entries without
units or without a change of line; neither shows in the lines.

Encoding the lines unit by unit gives the same table as encoding the runs: a unit
with the line of the unit before it adds nothing in either format.

Key definitions: `LineTable.Ordered`, `LineTable.linesFrom`, `LineTable.numbered`.
Key theorems: `LineTable.encode_numbered`, `LineTable.decode_encode`,
`LineTable.encode_decode_encode`.
-/
import Mathlib.Tactic.Set
import Wordcode.LineTable

namespace Wordcode

namespace LineTable

/-! ### Runs and the lines of units -/

section Runs

/-- The runs start one after the other, from unit `unit` on and before unit `units`, and
their lines are 32 bit numbers. -/
def Ordered (units : Nat) : List (Nat × Line) → (unit : Nat) → Prop
  | [], _ => True
  | (start, line) :: rest, unit =>
    unit ≤ start ∧ start < units ∧ (∀ l, line = some l → l < UInt32.size) ∧
      Ordered units rest (start + 1)

/-- The line behind the start of a run, when `current` was the line before it. -/
def carried (format : LineFormat) (line current : Line) : Line :=
  match format with
  | .lnotab => line.or current
  | .ranges => line

/-- The lines of the units from `unit` on, of `units` in all, when `current` is the line
there: a run has its line up to the start of the next. -/
def linesFrom (format : LineFormat) (units : Nat) : List (Nat × Line) → (unit : Nat) →
    (current : Line) → List Line
  | [], unit, current => List.replicate (units - unit) current
  | (start, line) :: rest, unit, current =>
    List.replicate (start - unit) current ++
      linesFrom format units rest start (carried format line current)

/-- Lines as runs of one unit each, from unit `k` on. -/
def numbered : List Line → (k : Nat) → List (Nat × Line)
  | [], _ => []
  | line :: rest, k => (k, line) :: numbered rest (k + 1)

variable {format : LineFormat} {units : Nat}

theorem Ordered.mono : ∀ {runs : List (Nat × Line)} {unit unit' : Nat}, unit' ≤ unit →
    Ordered units runs unit → Ordered units runs unit'
  | [], _, _, _, _ => trivial
  | _ :: _, _, _, hle, h => ⟨Nat.le_trans hle h.1, h.2⟩

theorem ordered_of_pairwise : ∀ {runs : List (Nat × Line)} {unit : Nat},
    (runs.map (·.1)).Pairwise (· < ·) →
    (∀ r ∈ runs, unit ≤ r.1 ∧ r.1 < units ∧ ∀ l, r.2 = some l → l < UInt32.size) →
    Ordered units runs unit
  | [], _, _, _ => trivial
  | (start, line) :: runs, unit, hascending, h => by
    rw [List.map_cons, List.pairwise_cons] at hascending
    obtain ⟨⟨hle, hlt, hline⟩, hrest⟩ := List.forall_mem_cons.mp h
    refine ⟨hle, hlt, hline, ordered_of_pairwise hascending.2 fun r hr => ?_⟩
    exact ⟨hascending.1 r.1 (List.mem_map_of_mem hr), (hrest r hr).2⟩

theorem numbered_append : ∀ (xs ys : List Line) (k : Nat),
    numbered (xs ++ ys) k = numbered xs k ++ numbered ys (k + xs.length)
  | [], _, _ => rfl
  | x :: xs, ys, k => by
    have hlen : k + 1 + xs.length = k + (x :: xs).length := by
      rw [List.length_cons]
      omega
    rw [List.cons_append, numbered, numbered, numbered_append xs ys, List.cons_append, hlen]

theorem getElem?_numbered : ∀ (lines : List Line) (k i : Nat),
    (numbered lines k)[i]? = lines[i]?.map fun line => (k + i, line)
  | [], _, _ => by simp [numbered]
  | line :: rest, k, 0 => by simp [numbered]
  | line :: rest, k, i + 1 => by
    have hrest := getElem?_numbered rest (k + 1) i
    rw [numbered, List.getElem?_cons_succ, List.getElem?_cons_succ, hrest]
    congr 2
    funext line
    rw [Nat.add_assoc, Nat.add_comm 1]

theorem length_linesFrom (format : LineFormat) : ∀ {runs : List (Nat × Line)} {unit : Nat}
    (current : Line),
    Ordered units runs unit → unit ≤ units →
    (linesFrom format units runs unit current).length = units - unit
  | [], unit, current, _, _ => by simp [linesFrom]
  | (start, line) :: rest, unit, current, h, hle => by
    obtain ⟨hstart, hlt, -, hrest⟩ := h
    have hlen := length_linesFrom format (carried format line current)
      (hrest.mono (Nat.le_succ start)) (Nat.le_of_lt hlt)
    unfold linesFrom
    rw [List.length_append, List.length_replicate, hlen]
    omega

theorem linesFrom_split (format : LineFormat) {runs : List (Nat × Line)} {unit start : Nat}
    (current : Line) (h : Ordered units runs start) (hle : unit ≤ start) (hlt : start ≤ units) :
    linesFrom format units runs unit current =
      List.replicate (start - unit) current ++ linesFrom format units runs start current := by
  cases runs with
  | nil =>
    unfold linesFrom
    rw [List.replicate_append_replicate]
    congr 1
    omega
  | cons run rest =>
    obtain ⟨first, line⟩ := run
    have hfirst : start ≤ first := h.1
    unfold linesFrom
    rw [← List.append_assoc, List.replicate_append_replicate]
    congr 2
    omega

theorem linesFrom_eq_cons (format : LineFormat) {runs : List (Nat × Line)} {start : Nat}
    (current : Line) (h : Ordered units runs (start + 1)) (hlt : start < units) :
    ∃ rest, linesFrom format units runs start current = current :: rest := by
  have hone : start + 1 - start = 1 := Nat.add_sub_cancel_left start 1
  rw [linesFrom_split format current h (Nat.le_succ start) hlt, hone]
  exact ⟨_, rfl⟩

end Runs

/-! ### Encoding unit by unit -/

section ByUnit

variable {units : Nat}

theorem encodeLnotab_replicate (line lastUnit : Nat) (rest : List (Nat × Line)) : ∀ n k : Nat,
    encodeLnotab (numbered (List.replicate n (some line)) k ++ rest) line lastUnit =
      encodeLnotab rest line lastUnit
  | 0, k => rfl
  | n + 1, k => by
    rw [List.replicate_succ, numbered, List.cons_append, encodeLnotab, if_pos rfl]
    exact encodeLnotab_replicate line lastUnit rest n (k + 1)

/-- An `lnotab` of the lines of the units is that of the runs. -/
theorem encodeLnotab_numbered : ∀ {runs : List (Nat × Line)} {unit : Nat} (line lastUnit : Nat),
    Ordered units runs unit →
    encodeLnotab (numbered (linesFrom .lnotab units runs unit (some line)) unit) line lastUnit =
      encodeLnotab runs line lastUnit
  | [], unit, line, lastUnit, _ => by
    have hnone := encodeLnotab_replicate line lastUnit [] (units - unit) unit
    rw [List.append_nil] at hnone
    unfold linesFrom
    rw [hnone]
  | (start, line') :: rest, unit, line, lastUnit, h => by
    obtain ⟨hstart, hlt, -, hrest⟩ := h
    have hsame : ∀ line lastUnit, encodeLnotab (numbered (linesFrom .lnotab units rest start
        (some line)) start) line lastUnit = encodeLnotab rest line lastUnit := fun line lastUnit =>
      encodeLnotab_numbered line lastUnit (hrest.mono (Nat.le_succ start))
    have hunit : unit + (start - unit) = start := by omega
    unfold linesFrom
    rw [numbered_append, List.length_replicate, hunit, encodeLnotab_replicate]
    cases line' with
    | none =>
      rw [encodeLnotab]
      exact hsame line lastUnit
    | some l =>
      rw [encodeLnotab]
      by_cases heq : l = line
      · subst heq
        rw [if_pos rfl]
        exact hsame l lastUnit
      · -- the unit `start` makes the entry, and the units behind it add nothing to it
        obtain ⟨later, hlater⟩ := linesFrom_eq_cons .lnotab (some l) hrest hlt
        have hbehind := hsame l start
        rw [hlater, numbered, encodeLnotab, if_pos rfl] at hbehind
        have hcarried : carried .lnotab (some l) (some line) = some l := rfl
        rw [if_neg heq, hcarried, hlater, numbered, encodeLnotab, if_neg heq, hbehind]

theorem encodeRanges_replicate (r : OpenRange) (rest : List (Nat × Line)) : ∀ n k : Nat,
    encodeRanges units (numbered (List.replicate n r.line) k ++ rest) r = encodeRanges units rest r
  | 0, k => rfl
  | n + 1, k => by
    rw [List.replicate_succ, numbered, List.cons_append, encodeRanges, if_pos rfl]
    exact encodeRanges_replicate r rest n (k + 1)

/-- A range table of the lines of the units is that of the runs. -/
theorem encodeRanges_numbered : ∀ {runs : List (Nat × Line)} {unit : Nat} (r : OpenRange),
    Ordered units runs unit →
    encodeRanges units (numbered (linesFrom .ranges units runs unit r.line) unit) r =
      encodeRanges units runs r
  | [], unit, r, _ => by
    have hnone : encodeRanges units (numbered (List.replicate (units - unit) r.line) unit ++ []) r =
        encodeRanges units [] r := encodeRanges_replicate r [] _ _
    rw [List.append_nil] at hnone
    unfold linesFrom
    rw [hnone]
  | (start, line) :: rest, unit, r, h => by
    obtain ⟨hstart, hlt, -, hrest⟩ := h
    have hsame : ∀ r : OpenRange, encodeRanges units (numbered (linesFrom .ranges units rest start
        r.line) start) r = encodeRanges units rest r := fun r =>
      encodeRanges_numbered r (hrest.mono (Nat.le_succ start))
    have hunit : unit + (start - unit) = start := by omega
    have hcarried : carried .ranges line r.line = line := rfl
    unfold linesFrom
    rw [numbered_append, List.length_replicate, hunit, encodeRanges_replicate, hcarried, encodeRanges]
    by_cases heq : line = r.line
    · subst heq
      rw [if_pos rfl]
      exact hsame r
    · obtain ⟨later, hlater⟩ := linesFrom_eq_cons .ranges line hrest hlt
      have hbehind := hsame { (r.close start).2 with line }
      rw [hlater, numbered, encodeRanges, if_pos rfl] at hbehind
      rw [if_neg heq, hlater, numbered, encodeRanges, if_neg heq]
      simp only [hbehind]

/-- **A table of the lines of the units is that of the runs.** -/
theorem encode_numbered (format : LineFormat) (firstLine : Nat) {runs : List (Nat × Line)}
    (h : Ordered units runs 0) :
    encode format firstLine (numbered (linesFrom format units runs 0 (some firstLine)) 0) units =
      encode format firstLine runs units := by
  unfold encode
  cases format with
  | lnotab =>
    have hsame := encodeLnotab_numbered firstLine 0 h
    simp only [hsame]
  | ranges =>
    have hsame := encodeRanges_numbered ⟨0, some firstLine, firstLine⟩ h
    simp only [hsame]

end ByUnit

/-! ### Units in a range of addresses -/

section Cover

theorem unitsIn_add {start mid stop : Nat} (h : start ≤ mid) (h' : mid ≤ stop) :
    unitsIn start mid + unitsIn mid stop = unitsIn start stop := by
  unfold unitsIn
  omega

theorem unitsIn_units (unit unit' : Nat) : unitsIn (unit * 2) (unit' * 2) = unit' - unit := by
  unfold unitsIn
  omega

theorem replicate_unitsIn_append {start mid stop : Nat} (h : start ≤ mid) (h' : mid ≤ stop)
    (line : Line) : List.replicate (unitsIn start mid) line ++
      List.replicate (unitsIn mid stop) line = List.replicate (unitsIn start stop) line := by
  rw [List.replicate_append_replicate, unitsIn_add h h']

variable {size start stop : Nat}

theorem cover_some (hstop : stop ≤ size) {line : Nat} (hline : line < UInt32.size)
    (position : Nat) : cover size start stop (some (line : Int)) position =
      .ok (List.replicate (unitsIn start stop) (some line)) := by
  have hrange : (0 : Int) ≤ line ∧ (line : Int) < UInt32.size := by omega
  unfold cover
  simp only [if_neg (Nat.not_lt.mpr hstop), if_pos hrange, Int.toNat_natCast]

theorem cover_none (hstop : stop ≤ size) (position : Nat) :
    cover size start stop none position = .ok (List.replicate (unitsIn start stop) none) := by
  unfold cover
  rw [if_neg (Nat.not_lt.mpr hstop)]

theorem toInt_toInt8 {d : Int} (h : -128 ≤ d) (h' : d ≤ 127) : d.toInt8.toInt = d := by
  apply Int8.toInt_ofInt_of_le
  · omega
  · omega

theorem toNat_toUInt8 {b : Nat} (h : b ≤ 255) : b.toUInt8.toNat = b := by
  rw [Nat.toUInt8_eq, UInt8.toNat_ofNat']
  omega

end Cover

/-! ### Reading an `lnotab` back -/

section Lnotab

variable {units size start line : Nat} {entries : List LineDelta} {lines : List Line}

/-- From address `start` on, where `line` is current, the entries are read as the lines
`lines`, wherever in a table they stand. -/
def ReadsLnotab (size : Nat) (entries : List LineDelta) (start : Nat) (line : Int)
    (lines : List Line) : Prop :=
  ∀ position, decodeLnotab size entries start line position = .ok lines

theorem readsLnotab_nil (hline : line < UInt32.size) :
    ReadsLnotab size [] start line (List.replicate (unitsIn start size) (some line)) := by
  intro position
  unfold decodeLnotab
  exact cover_some (Nat.le_refl size) hline position

/-- An entry without bytes changes the line. -/
theorem ReadsLnotab.step {line d : Int} (hd : -128 ≤ d) (hd' : d ≤ 127)
    (h : ReadsLnotab size entries start (line + d) lines) :
    ReadsLnotab size (⟨0, d.toInt8⟩ :: entries) start line lines := by
  intro position
  unfold decodeLnotab
  rw [if_pos rfl, toInt_toInt8 hd hd']
  exact h (position + 1)

theorem ReadsLnotab.steps {d : Int} (hd : -128 ≤ d) (hd' : d ≤ 127) : ∀ (n : Nat) {line : Int},
    ReadsLnotab size entries start (line + n * d) lines →
    ReadsLnotab size (List.replicate n ⟨0, d.toInt8⟩ ++ entries) start line lines
  | 0, line, h => by
    have hline : line + (0 : Nat) * d = line := by simp
    rw [hline] at h
    exact h
  | n + 1, line, h => by
    have hline : line + (n + 1 : Nat) * d = line + d + n * d := by
      rw [Int.natCast_succ, Int.add_mul, Int.one_mul]
      omega
    rw [hline] at h
    rw [List.replicate_succ, List.cons_append]
    exact (ReadsLnotab.steps hd hd' n h).step hd hd'

theorem ReadsLnotab.cons {b : Nat} {d : Int} (hb : b ≤ 255) (hd : -128 ≤ d) (hd' : d ≤ 127)
    (hline : line < UInt32.size) (hstop : start + b ≤ size)
    (h : ReadsLnotab size entries (start + b) (line + d) lines) :
    ReadsLnotab size (⟨b.toUInt8, d.toInt8⟩ :: entries) start line
      (List.replicate (unitsIn start (start + b)) (some line) ++ lines) := by
  by_cases hzero : b = 0
  · subst hzero
    have hnone : unitsIn start (start + 0) = 0 := Nat.sub_self _
    rw [hnone]
    exact h.step hd hd'
  · intro position
    have hne : b.toUInt8 ≠ 0 := by
      intro heq
      have hval := congrArg UInt8.toNat heq
      rw [toNat_toUInt8 hb] at hval
      exact hzero hval
    have hcover : cover size start (start + b) (some (line : Int)) position =
        .ok (List.replicate (unitsIn start (start + b)) (some line)) := cover_some hstop hline position
    unfold decodeLnotab
    simp only [if_neg hne, toNat_toUInt8 hb, toInt_toInt8 hd hd', hcover, h (position + 1)]
    rfl

theorem ReadsLnotab.far (hline : line < UInt32.size) : ∀ (n : Nat) {start : Nat},
    start + n * 255 ≤ size → ReadsLnotab size entries (start + n * 255) line lines →
    ReadsLnotab size (List.replicate n ⟨255, 0⟩ ++ entries) start line
      (List.replicate (unitsIn start (start + n * 255)) (some line) ++ lines)
  | 0, start, _, h => by
    have hnone : unitsIn start (start + 0 * 255) = 0 := by
      rw [Nat.zero_mul]
      exact Nat.sub_self _
    rw [hnone]
    simpa using h
  | n + 1, start, hstop, h => by
    have hstart : start + (n + 1) * 255 = start + 255 + n * 255 := by omega
    rw [hstart] at hstop h ⊢
    have hfar := ReadsLnotab.far hline n hstop h
    have hzero : (line : Int) = line + 0 := (Int.add_zero _).symm
    rw [hzero] at hfar
    have hcons := ReadsLnotab.cons (b := 255) (d := 0) (by omega) (by omega) (by omega) hline
      (by omega) hfar
    rw [← List.append_assoc, replicate_unitsIn_append (by omega) (by omega)] at hcons
    rw [List.replicate_succ, List.cons_append]
    exact hcons

/-- A distance in lines beyond a byte takes some full steps and leaves a rest. -/
theorem lnotab_steps {d : Int} (h : ¬ (-128 ≤ d ∧ d ≤ 127)) {step : Int}
    (hstep : step = if d < 0 then -128 else 127) :
    1 ≤ d.natAbs / step.natAbs ∧ -128 ≤ d - (d.natAbs / step.natAbs : Nat) * step ∧
      d - (d.natAbs / step.natAbs : Nat) * step ≤ 127 := by
  by_cases hneg : d < 0
  · rw [if_pos hneg] at hstep
    subst hstep
    have habs : (-128 : Int).natAbs = 128 := rfl
    rw [habs]
    omega
  · rw [if_neg hneg] at hstep
    subst hstep
    have habs : (127 : Int).natAbs = 127 := rfl
    rw [habs]
    omega

/-- A change of line covers its bytes with the line before it. -/
theorem ReadsLnotab.change {bytes : Nat} {d : Int} (hline : line < UInt32.size)
    (hstop : start + bytes ≤ size) (h : ReadsLnotab size entries (start + bytes) (line + d) lines) :
    ReadsLnotab size (lnotabEntries bytes d ++ entries) start line
      (List.replicate (unitsIn start (start + bytes)) (some line) ++ lines) := by
  set jumps := if bytes ≤ 255 then 0 else bytes / 255 with hjumps
  have hrest : bytes - jumps * 255 ≤ 255 ∧ jumps * 255 ≤ bytes := by
    by_cases hsmall : bytes ≤ 255
    · rw [if_pos hsmall] at hjumps
      omega
    · rw [if_neg hsmall] at hjumps
      omega
  have hsum : start + jumps * 255 + (bytes - jumps * 255) = start + bytes := by omega
  -- whatever follows the full ranges has to cover the bytes that are left
  have hfar : ∀ later : List LineDelta,
      ReadsLnotab size later (start + jumps * 255) line (List.replicate
        (unitsIn (start + jumps * 255) (start + bytes)) (some line) ++ lines) →
      ReadsLnotab size (List.replicate jumps ⟨255, 0⟩ ++ later) start line
        (List.replicate (unitsIn start (start + bytes)) (some line) ++ lines) := by
    intro later hlater
    have hall := ReadsLnotab.far hline jumps (by omega) hlater
    rw [← List.append_assoc, replicate_unitsIn_append (by omega) (by omega)] at hall
    exact hall
  rw [← hsum] at h
  unfold lnotabEntries
  simp only [← hjumps]
  by_cases hsmall : -128 ≤ d ∧ d ≤ 127
  · rw [if_pos hsmall, List.append_assoc]
    apply hfar
    have hcons := h.cons hrest.1 hsmall.1 hsmall.2 hline (by omega)
    rw [hsum] at hcons
    exact hcons
  · set step : Int := if d < 0 then -128 else 127 with hstep
    set count := d.natAbs / step.natAbs with hcount
    obtain ⟨hone, hlow, hhigh⟩ := lnotab_steps hsmall hstep
    have hbyte : -128 ≤ step ∧ step ≤ 127 := by
      rw [hstep]
      split <;> omega
    have hline' : (line : Int) + step + (count - 1 : Nat) * step + (d - count * step) = line + d := by
      have hcast : ((count - 1 : Nat) : Int) = count - 1 := by omega
      rw [hcast, Int.sub_mul, Int.one_mul]
      omega
    rw [← hline'] at h
    have hsteps := (h.step hlow hhigh).steps hbyte.1 hbyte.2 (count - 1)
    have hcons := hsteps.cons hrest.1 hbyte.1 hbyte.2 hline (by omega)
    rw [hsum] at hcons
    rw [if_neg hsmall, List.append_assoc]
    simp only [List.cons_append, List.append_assoc, List.nil_append] at hcons ⊢
    exact hfar _ hcons

/-- The table of runs is read as the lines of the units. -/
theorem readsLnotab_encode : ∀ {runs : List (Nat × Line)} {line unit : Nat},
    Ordered units runs unit → unit ≤ units → line < UInt32.size →
    ReadsLnotab (units * 2) (encodeLnotab runs line unit) (unit * 2) line
      (linesFrom .lnotab units runs unit (some line))
  | [], line, unit, _, _, hline => by
    have hnil : ReadsLnotab (units * 2) [] (unit * 2) line
        (List.replicate (unitsIn (unit * 2) (units * 2)) (some line)) := readsLnotab_nil hline
    rw [unitsIn_units] at hnil
    exact hnil
  | (start, line') :: rest, line, unit, h, hle, hline => by
    obtain ⟨hstart, hlt, hline', hrest⟩ := h
    have hmono := hrest.mono (Nat.le_succ start)
    have hsplit := linesFrom_split .lnotab (some line) hmono hstart
      (Nat.le_of_lt hlt)
    have hskip := readsLnotab_encode (hmono.mono hstart) hle hline
    cases line' with
    | none =>
      unfold linesFrom
      rw [encodeLnotab, carried, Option.none_or, ← hsplit]
      exact hskip
    | some l =>
      unfold linesFrom
      rw [encodeLnotab, carried, Option.some_or]
      by_cases heq : l = line
      · subst heq
        rw [if_pos rfl, ← hsplit]
        exact hskip
      · have hbehind := readsLnotab_encode hmono (Nat.le_of_lt hlt) (hline' l rfl)
        have hbytes : unit * 2 + (start - unit) * 2 = start * 2 := by omega
        have hlines : (line : Int) + (l - line) = l := by omega
        rw [← hbytes, ← hlines] at hbehind
        have hchange := hbehind.change hline (by omega)
        rw [hbytes, unitsIn_units] at hchange
        rw [if_neg heq]
        exact hchange

end Lnotab

/-! ### Reading a range table back -/

section Ranges

variable {units size start : Nat} {entries : List LineDelta} {lines : List Line}

/-- From address `start` on, where `line` is current, the entries are read as the lines
`lines`, wherever in a table they stand. -/
def ReadsRanges (size : Nat) (entries : List LineDelta) (start : Nat) (line : Int)
    (lines : List Line) : Prop :=
  ∀ position, decodeRanges size entries start line position = .ok lines

/-- The lines of an entry: which line is current after it, and which its units have. -/
inductive Moves (line : Int) : Int8 → Int → Line → Prop
  | none : Moves line noLine line none
  | line {d : Int} {l : Nat} (hd : -127 ≤ d) (hd' : d ≤ 127) (hl : line + d = l)
      (hlt : l < UInt32.size) : Moves line d.toInt8 l (some l)

theorem ReadsRanges.cons {line line' : Int} {x : Int8} {shown : Line} (hx : Moves line x line' shown)
    {b : Nat} (hb : b ≤ 255) (hstop : start + b ≤ size)
    (h : ReadsRanges size entries (start + b) line' lines) :
    ReadsRanges size (⟨b.toUInt8, x⟩ :: entries) start line
      (List.replicate (unitsIn start (start + b)) shown ++ lines) := by
  intro position
  unfold decodeRanges
  cases hx with
  | none =>
    simp only [toNat_toUInt8 hb, if_true, cover_none hstop, h (position + 1)]
    rfl
  | @line d l hd hd' hl hlt =>
    -- a change of line is never the mark for units without one
    have hne : d.toInt8 ≠ noLine := by
      intro heq
      have hval := congrArg Int8.toInt heq
      rw [toInt_toInt8 (by omega) hd'] at hval
      have hmark : noLine.toInt = -128 := rfl
      omega
    simp only [toNat_toUInt8 hb, if_neg hne, toInt_toInt8 (show -128 ≤ d by omega) hd', hl,
      cover_some hstop hlt, h (position + 1)]
    rfl

theorem ReadsRanges.wide {line : Int} {x : Int8} {shown : Line} (hx : Moves line x line shown) :
    ∀ (n : Nat) {start : Nat}, start + n * 254 ≤ size →
    ReadsRanges size entries (start + n * 254) line lines →
    ReadsRanges size (List.replicate n ⟨254, x⟩ ++ entries) start line
      (List.replicate (unitsIn start (start + n * 254)) shown ++ lines)
  | 0, start, _, h => by
    have hnone : unitsIn start (start + 0 * 254) = 0 := by
      rw [Nat.zero_mul]
      exact Nat.sub_self _
    rw [hnone]
    simpa using h
  | n + 1, start, hstop, h => by
    have hstart : start + (n + 1) * 254 = start + 254 + n * 254 := by omega
    rw [hstart] at hstop h ⊢
    have hwide := ReadsRanges.wide hx n hstop h
    have hcons := hwide.cons hx (b := 254) (by omega) (by omega)
    rw [← List.append_assoc, replicate_unitsIn_append (by omega) (by omega)] at hcons
    rw [List.replicate_succ, List.cons_append]
    exact hcons

/-- The entries of one range: the first moves to its line, and the others stay there. -/
theorem ReadsRanges.spread {line line' : Int} {first next : Int8} {shown : Line} {bytes : Nat}
    (hpos : 0 < bytes) (hstop : start + bytes ≤ size) (hfirst : Moves line first line' shown)
    (hnext : Moves line' next line' shown)
    (h : ReadsRanges size entries (start + bytes) line' lines) :
    let jumps := (bytes - 1) / 254
    ReadsRanges size ((if jumps = 0 then [⟨(bytes - jumps * 254).toUInt8, first⟩]
      else ⟨254, first⟩ :: List.replicate (jumps - 1) ⟨254, next⟩ ++
        [⟨(bytes - jumps * 254).toUInt8, next⟩]) ++ entries) start line
      (List.replicate (unitsIn start (start + bytes)) shown ++ lines) := by
  intro jumps
  have hjumps : jumps = (bytes - 1) / 254 := rfl
  by_cases hone : jumps = 0
  · have hsmall : bytes ≤ 254 := by omega
    have hrest : bytes - jumps * 254 = bytes := by rw [hone, Nat.zero_mul, Nat.sub_zero]
    rw [if_pos hone, hrest]
    exact h.cons hfirst (by omega) hstop
  · have hrest : bytes - jumps * 254 ≤ 254 ∧ jumps * 254 ≤ bytes := by omega
    have hsum : start + jumps * 254 + (bytes - jumps * 254) = start + bytes := by omega
    have hstart : start + 254 + (jumps - 1) * 254 = start + jumps * 254 := by omega
    rw [← hsum] at h
    have hlast := h.cons hnext (by omega) (by omega)
    rw [hsum, ← hstart] at hlast
    have hwide := hlast.wide hnext (jumps - 1) (by omega)
    rw [← List.append_assoc, replicate_unitsIn_append (by omega) (by omega)] at hwide
    have hcons := hwide.cons hfirst (b := 254) (by omega) (by omega)
    rw [← List.append_assoc, replicate_unitsIn_append (by omega) (by omega)] at hcons
    rw [if_neg hone]
    simpa using hcons

/-- Entries without bytes lead to a line some full steps away. -/
theorem ReadsRanges.leaps {step : Int} (hstep : step = 127 ∨ step = -127) (hle : start ≤ size) :
    ∀ (n : Nat) {line line' : Nat}, line < UInt32.size → line' < UInt32.size →
    (line : Int) + n * step = line' → ReadsRanges size entries start line' lines →
    ReadsRanges size (List.replicate n ⟨0, step.toInt8⟩ ++ entries) start line lines
  | 0, line, line', _, _, hl, h => by
    have heq : line = line' := by
      rw [Int.natCast_zero, Int.zero_mul, Int.add_zero] at hl
      exact Int.ofNat.inj hl
    rw [heq]
    exact h
  | n + 1, line, line', hline, hline', hl, h => by
    rw [Int.natCast_succ, Int.add_mul, Int.one_mul] at hl
    -- a line between two lines is a line too
    obtain ⟨mid, hmid, hmidlt⟩ : ∃ mid : Nat, (line : Int) + step = mid ∧ mid < UInt32.size := by
      have hbetween : 0 ≤ (line : Int) + step ∧ (line : Int) + step < UInt32.size := by
        rcases hstep with rfl | rfl <;> omega
      exact ⟨((line : Int) + step).toNat, by omega, by omega⟩
    have hrest : (mid : Int) + n * step = line' := by omega
    have hleaps := ReadsRanges.leaps hstep hle n hmidlt hline' hrest h
    have hmoves : Moves line step.toInt8 mid (some mid) := by
      apply Moves.line _ _ hmid hmidlt
      · rcases hstep with rfl | rfl <;> decide
      · rcases hstep with rfl | rfl <;> decide
    have hcons := hleaps.cons hmoves (b := 0) (by omega) hle
    have hnone : unitsIn start (start + 0) = 0 := Nat.sub_self _
    rw [hnone] at hcons
    rw [List.replicate_succ, List.cons_append]
    exact hcons

theorem ReadsRanges.range {bytes line : Nat} {shown : Line} (hpos : 0 < bytes)
    (hstop : start + bytes ≤ size) (hline : line < UInt32.size)
    (hshown : ∀ l, shown = some l → l < UInt32.size)
    (h : ReadsRanges size entries (start + bytes) (shown.getD line : Nat) lines) :
    ReadsRanges size (rangeEntries bytes (shown.map fun l => (l : Int) - line) ++ entries) start line
      (List.replicate (unitsIn start (start + bytes)) shown ++ lines) := by
  unfold rangeEntries
  cases shown with
  | none => exact h.spread hpos hstop .none .none
  | some l =>
    have hlt : l < UInt32.size := hshown l rfl
    simp only [Option.getD_some] at h ⊢
    set d : Int := (l : Int) - line with hd
    set step : Int := if d < 0 then -127 else 127 with hstep
    set count := (d.natAbs - 1) / 127 with hcount
    -- the leaps stay between the two lines, and leave a distance that fits a byte
    have hleaps : (step = 127 ∨ step = -127) ∧ -127 ≤ d - count * step ∧ d - count * step ≤ 127 ∧
        0 ≤ line + count * step ∧ line + count * step < UInt32.size := by
      by_cases hneg : d < 0
      · rw [if_pos hneg] at hstep
        rw [hstep]
        omega
      · rw [if_neg hneg] at hstep
        rw [hstep]
        omega
    obtain ⟨hunit, hlow, hhigh, hfrom, hto⟩ := hleaps
    have hmid : ((line + count * step).toNat : Int) = line + count * step := Int.toNat_of_nonneg hfrom
    have hfirst : Moves ((line + count * step).toNat : Int) (d - count * step).toInt8 l (some l) :=
      Moves.line hlow hhigh (by omega) hlt
    have hstay : Moves (l : Int) 0 l (some l) :=
      Moves.line (d := 0) (by omega) (by omega) (Int.add_zero _) hlt
    have hspread := h.spread hpos hstop hfirst hstay
    rw [List.append_assoc]
    exact hspread.leaps hunit (by omega) count hline (by omega) hmid.symm

/-- Closing a range gives its units its line. -/
theorem ReadsRanges.close {r : OpenRange} {unit : Nat} (hle : r.start ≤ unit) (hunit : unit ≤ units)
    (hlast : r.lastLine < UInt32.size) (hline : ∀ l, r.line = some l → l < UInt32.size)
    (h : ReadsRanges (units * 2) entries (unit * 2) (r.close unit).2.lastLine lines) :
    ReadsRanges (units * 2) ((r.close unit).1 ++ entries) (r.start * 2) r.lastLine
      (List.replicate (unit - r.start) r.line ++ lines) := by
  obtain ⟨start, line, lastLine⟩ := r
  have hbytes : start * 2 + (unit - start) * 2 = unit * 2 := by
    have hstart : start ≤ unit := hle
    omega
  unfold OpenRange.close at h ⊢
  by_cases hzero : (unit - start) * 2 = 0
  · obtain rfl : unit = start := by
      have hstart : start ≤ unit := hle
      omega
    simp only [Nat.sub_self, Nat.zero_mul, if_true] at h ⊢
    exact h
  · have hrange : ReadsRanges (units * 2) entries (start * 2 + (unit - start) * 2)
        (line.getD lastLine : Nat) lines := by
      rw [hbytes]
      cases line <;> simpa [hzero] using h
    have hread := hrange.range (Nat.pos_of_ne_zero hzero) (by omega) hlast hline
    rw [hbytes, unitsIn_units] at hread
    cases line <;> simpa [hzero] using hread

/-- What closing a range leaves. -/
theorem close_spec {r : OpenRange} {unit : Nat} (hle : r.start ≤ unit)
    (hlast : r.lastLine < UInt32.size) (hline : ∀ l, r.line = some l → l < UInt32.size) :
    (r.close unit).2.start = unit ∧ (r.close unit).2.lastLine < UInt32.size := by
  obtain ⟨start, line, lastLine⟩ := r
  unfold OpenRange.close
  by_cases hzero : (unit - start) * 2 = 0
  · have hstart : start ≤ unit := hle
    simp only [hzero, if_true]
    exact ⟨by omega, hlast⟩
  · simp only [if_neg hzero]
    cases line with
    | none => exact ⟨rfl, hlast⟩
    | some l => exact ⟨rfl, hline l rfl⟩

theorem readsRanges_encode : ∀ {runs : List (Nat × Line)} {r : OpenRange},
    Ordered units runs r.start → r.start ≤ units → r.lastLine < UInt32.size →
    (∀ l, r.line = some l → l < UInt32.size) →
    ReadsRanges (units * 2) (encodeRanges units runs r) (r.start * 2) r.lastLine
      (linesFrom .ranges units runs r.start r.line)
  | [], r, _, hle, hlast, hline => by
    have hend : ReadsRanges (units * 2) [] (units * 2) (r.close units).2.lastLine [] := fun _ => rfl
    have hclose := hend.close hle (Nat.le_refl units) hlast hline
    rw [List.append_nil, List.append_nil] at hclose
    exact hclose
  | (start, line) :: rest, r, h, hle, hlast, hline => by
    obtain ⟨hstart, hlt, hline', hrest⟩ := h
    have hmono := hrest.mono (Nat.le_succ start)
    unfold linesFrom
    rw [encodeRanges, carried]
    by_cases heq : line = r.line
    · subst heq
      -- the open range goes on
      rw [if_pos rfl, ← linesFrom_split .ranges r.line hmono hstart (Nat.le_of_lt hlt)]
      exact readsRanges_encode (hmono.mono hstart) hle hlast hline
    · -- it is closed, and one with the new line is open
      obtain ⟨hnext, hlast'⟩ := close_spec hstart hlast hline
      set r' : OpenRange := { (r.close start).2 with line } with hr'
      have hstart' : r'.start = start := hnext
      have hordered : Ordered units rest r'.start := by
        rw [hstart']
        exact hmono
      have hle' : r'.start ≤ units := by
        rw [hstart']
        exact Nat.le_of_lt hlt
      have hbehind := readsRanges_encode (r := r') hordered hle' hlast' hline'
      rw [hstart'] at hbehind
      rw [if_neg heq]
      exact hbehind.close hstart (Nat.le_of_lt hlt) hlast hline

end Ranges

/-! ### Both formats -/

section Both

variable {units firstLine : Nat} {runs : List (Nat × Line)}

theorem readAll_entries (entries : List LineDelta) :
    Record.readAll 2 (entries.flatMap LineDelta.toBytes) =
      .ok (entries.map fun e => (e.bytes, e.lines.toUInt8)) := by
  rw [Record.readAll_two_eq_ok_iff, List.flatMap_map]
  rfl

theorem length_decodeLnotab {size : Nat} : ∀ {entries : List LineDelta} {start position : Nat}
    {line : Int} {lines : List Line}, start ≤ size →
    decodeLnotab size entries start line position = .ok lines → lines.length = unitsIn start size
  | [], _, _, _, _, _, h => (length_cover h).1
  | e :: rest, start, position, line, lines, hle, h => by
    unfold decodeLnotab at h
    by_cases hzero : e.bytes = 0
    · rw [if_pos hzero] at h
      exact length_decodeLnotab hle h
    · rw [if_neg hzero] at h
      obtain ⟨here, hhere, h⟩ := bind_eq_ok_iff.mp h
      obtain ⟨later, hlater, h⟩ := bind_eq_ok_iff.mp h
      obtain rfl := Except.ok.inj h
      obtain ⟨hlen, hstop⟩ := length_cover hhere
      rw [List.length_append, hlen, length_decodeLnotab hstop hlater]
      exact unitsIn_add (Nat.le_add_right _ _) hstop

theorem length_decodeRanges {size : Nat} : ∀ {entries : List LineDelta} {start position : Nat}
    {line : Int} {lines : List Line}, start ≤ size →
    decodeRanges size entries start line position = .ok lines → lines.length ≤ unitsIn start size
  | [], _, _, _, _, _, h => by
    obtain rfl := Except.ok.inj h
    exact Nat.zero_le _
  | e :: rest, start, position, line, lines, hle, h => by
    unfold decodeRanges at h
    obtain ⟨here, hhere, h⟩ := bind_eq_ok_iff.mp h
    obtain ⟨later, hlater, h⟩ := bind_eq_ok_iff.mp h
    obtain rfl := Except.ok.inj h
    obtain ⟨hlen, hstop⟩ := length_cover hhere
    have hbehind := length_decodeRanges hstop hlater
    rw [List.length_append, hlen, ← unitsIn_add (Nat.le_add_right _ _) hstop]
    exact Nat.add_le_add_left hbehind _

/-- **A table that is read at all has a line for every unit.** -/
theorem length_decode {format : LineFormat} {table : List UInt8} {lines : List Line}
    (h : decode format table firstLine units = .ok lines) : lines.length = units := by
  have hunits : unitsIn 0 (units * 2) = units := by
    unfold unitsIn
    omega
  unfold decode at h
  cases hpairs : Record.readAll 2 table with
  | error e =>
    rw [hpairs] at h
    cases h
  | ok pairs =>
    rw [hpairs] at h
    cases format with
    | lnotab =>
      rw [length_decodeLnotab (Nat.zero_le _) h]
      exact hunits
    | ranges =>
      obtain ⟨ranged, hranged, h⟩ := bind_eq_ok_iff.mp h
      obtain rfl := Except.ok.inj h
      have hle := length_decodeRanges (Nat.zero_le _) hranged
      rw [List.length_append, List.length_replicate]
      omega

/-- Lines are 32 bit numbers. -/
def Narrow (lines : List Line) : Prop := ∀ l, some l ∈ lines → l < UInt32.size

theorem Narrow.append {xs ys : List Line} (hx : Narrow xs) (hy : Narrow ys) : Narrow (xs ++ ys) :=
  fun l hl => (List.mem_append.mp hl).elim (hx l) (hy l)

theorem narrow_cover {size start stop position : Nat} {line : Option Int} {lines : List Line}
    (h : cover size start stop line position = .ok lines) : Narrow lines := by
  intro l hl
  unfold cover at h
  split at h
  · cases h
  · split at h
    · obtain rfl := Except.ok.inj h
      cases List.eq_of_mem_replicate hl
    · split at h
      · rename_i hrange
        obtain rfl := Except.ok.inj h
        have heq := Option.some.inj (List.eq_of_mem_replicate hl)
        omega
      · cases h

theorem narrow_decodeLnotab {size : Nat} : ∀ {entries : List LineDelta} {start position : Nat}
    {line : Int} {lines : List Line}, decodeLnotab size entries start line position = .ok lines →
    Narrow lines
  | [], _, _, _, _, h => narrow_cover h
  | e :: rest, start, position, line, lines, h => by
    unfold decodeLnotab at h
    by_cases hzero : e.bytes = 0
    · rw [if_pos hzero] at h
      exact narrow_decodeLnotab h
    · rw [if_neg hzero] at h
      obtain ⟨here, hhere, h⟩ := bind_eq_ok_iff.mp h
      obtain ⟨later, hlater, h⟩ := bind_eq_ok_iff.mp h
      obtain rfl := Except.ok.inj h
      exact (narrow_cover hhere).append (narrow_decodeLnotab hlater)

theorem narrow_decodeRanges {size : Nat} : ∀ {entries : List LineDelta} {start position : Nat}
    {line : Int} {lines : List Line}, decodeRanges size entries start line position = .ok lines →
    Narrow lines
  | [], _, _, _, _, h => by
    obtain rfl := Except.ok.inj h
    exact fun l hl => nomatch hl
  | e :: rest, start, position, line, lines, h => by
    unfold decodeRanges at h
    obtain ⟨here, hhere, h⟩ := bind_eq_ok_iff.mp h
    obtain ⟨later, hlater, h⟩ := bind_eq_ok_iff.mp h
    obtain rfl := Except.ok.inj h
    exact (narrow_cover hhere).append (narrow_decodeRanges hlater)

theorem narrow_decode {format : LineFormat} {table : List UInt8} {lines : List Line}
    (h : decode format table firstLine units = .ok lines) : Narrow lines := by
  unfold decode at h
  cases hpairs : Record.readAll 2 table with
  | error e =>
    rw [hpairs] at h
    cases h
  | ok pairs =>
    rw [hpairs] at h
    cases format with
    | lnotab => exact narrow_decodeLnotab h
    | ranges =>
      obtain ⟨ranged, hranged, h⟩ := bind_eq_ok_iff.mp h
      obtain rfl := Except.ok.inj h
      exact (narrow_decodeRanges hranged).append fun l hl => by cases List.eq_of_mem_replicate hl

/-- **An encoded table is read as the lines of the units.** -/
theorem decode_encode (format : LineFormat) (h : Ordered units runs 0)
    (hfirst : firstLine < UInt32.size) :
    decode format (encode format firstLine runs units) firstLine units =
      .ok (linesFrom format units runs 0 (some firstLine)) := by
  have hentries : ∀ entries : List LineDelta,
      (entries.map fun e => (e.bytes, e.lines.toUInt8)).map LineDelta.ofPair = entries := by
    intro entries
    rw [List.map_map]
    exact List.map_id entries
  unfold decode encode
  rw [readAll_entries]
  simp only [hentries]
  cases format with
  | lnotab =>
    have hread := readsLnotab_encode h (Nat.zero_le units) hfirst 0
    rw [Nat.zero_mul] at hread
    exact hread
  | ranges =>
    have hread := readsRanges_encode (r := ⟨0, some firstLine, firstLine⟩) h (Nat.zero_le units) hfirst
      (fun l hl => Option.some.inj hl ▸ hfirst) 0
    rw [Nat.zero_mul] at hread
    have hlen := length_linesFrom .ranges (some firstLine) h (Nat.zero_le units)
    rw [Nat.sub_zero] at hlen
    simp only [hread, bind, Except.bind, pure, Except.pure, hlen, Nat.sub_self, List.replicate_zero,
      List.append_nil]

/-- **Encoding the lines that were read gives the same table again.** -/
theorem encode_decode_encode (format : LineFormat) (h : Ordered units runs 0)
    (hfirst : firstLine < UInt32.size) : ∃ lines,
    decode format (encode format firstLine runs units) firstLine units = .ok lines ∧
      encode format firstLine (numbered lines 0) units = encode format firstLine runs units :=
  ⟨_, decode_encode format h hfirst, encode_numbered format firstLine h⟩

end Both

end LineTable

end Wordcode
