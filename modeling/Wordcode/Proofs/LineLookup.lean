/-
# Lines by address

What a line table says, looked up by address instead of read from front to back.

Of a table made of runs, a unit has the line of the last run that starts at it or before it
(`LineTable.lineAt`), in the `lnotab` format of the last such run that has a line.

In a table of any bytes each entry has the addresses from where the entry before it stops
(`LineTable.spans`). An `lnotab` gives an address the sum of the changes of line of all
entries that stop there or before. A range table gives it the sum up to the entry that
contains it, if there is one and it has a line (`LineTable.Shows`). Entries may be empty or
stop in the middle of a unit; the address of a unit is that of its first byte.

Reading is also said as what it does to memory: an entry is checked and then its line is
written to unit after unit, as long as they begin before the entry stops
(`LineTable.writeUnits`, `LineTable.fillTable`). The check comes first, so that nothing is
written behind the code, whatever the table.

Key definitions: `LineTable.lineAt`, `LineTable.spans`, `LineTable.Shows`,
`LineTable.fillTable`.
Key theorems: `LineTable.decode_encode_runs`, `LineTable.fillAll_outside`,
`LineTable.decode_eq_fillTable`, `LineTable.decode_by_address`.
-/
import Mathlib.Logic.Function.Basic
import Wordcode.Proofs.EmittedLines

namespace Wordcode

namespace LineTable

/-! ### Runs -/

section Runs

variable {units firstLine : Nat} {runs : List (Nat × Line)}

/-- The lines of the runs that start at unit `k` or before it. -/
def started (runs : List (Nat × Line)) (k : Nat) : List Line :=
  (runs.filter (·.1 ≤ k)).map (·.2)

/-- The line that runs give unit `k`: in a range table that of the last run that starts at it or
before it, in an `lnotab` that of the last such run that has a line. -/
def lineAt (format : LineFormat) (firstLine : Nat) (runs : List (Nat × Line)) (k : Nat) : Line :=
  match format with
  | .lnotab => some ((started runs k).reduceOption.getLastD firstLine)
  | .ranges => (started runs k).getLastD (some firstLine)

theorem carriedOver_ranges_eq_getLastD : ∀ (lines : List Line) (current : Line),
    carriedOver .ranges lines current = lines.getLastD current
  | [], _ => rfl
  | line :: lines, current => by
    rw [List.getLastD_cons]
    exact carriedOver_ranges_eq_getLastD lines line

theorem getElem?_linesFrom_started (format : LineFormat) {k : Nat} (hk : k < units) :
    ∀ {runs : List (Nat × Line)} {unit : Nat} (current : Line), Ordered units runs unit →
    unit ≤ k → (linesFrom format units runs unit current)[k - unit]? =
      some (carriedOver format (started runs k) current)
  | [], unit, current, _, hle => by
    rw [linesFrom, List.getElem?_replicate_of_lt (by omega)]
    rfl
  | (start, line) :: runs, unit, current, hordered, hle => by
    obtain ⟨hunit, -, -, hrest⟩ := hordered
    by_cases hstart : start ≤ k
    · have hskip : k - unit - (start - unit) = k - start := by omega
      have hstarted : started ((start, line) :: runs) k = line :: started runs k := by
        rw [started, List.filter_cons_of_pos (by simpa using hstart)]
        rfl
      rw [linesFrom, List.getElem?_append_right (by rw [List.length_replicate]; omega),
        List.length_replicate, hskip, hstarted]
      exact getElem?_linesFrom_started format hk _ (hrest.mono (Nat.le_succ _)) hstart
    · -- all other runs start later still
      have hnone : started ((start, line) :: runs) k = [] := by
        rw [started, List.map_eq_nil_iff, List.filter_eq_nil_iff]
        intro run hrun
        rcases List.mem_cons.mp hrun with rfl | hrun
        · simpa using hstart
        · have hlater := hrest.le hrun
          have hfar : ¬ run.1 ≤ k := by omega
          simpa using hfar
      rw [linesFrom, List.getElem?_append_left (by rw [List.length_replicate]; omega),
        List.getElem?_replicate_of_lt (by omega), hnone]
      rfl

theorem carriedOver_started (format : LineFormat) (k : Nat) :
    carriedOver format (started runs k) (some firstLine) = lineAt format firstLine runs k := by
  cases format with
  | lnotab => exact carriedOver_lnotab _ firstLine
  | ranges => exact carriedOver_ranges_eq_getLastD _ _

/-- **A table of runs gives every unit the line of its run.** It can be read, and the lines that
are read, as runs of one unit each, make the same table again. -/
theorem decode_encode_runs (format : LineFormat) (hfirst : firstLine < UInt32.size)
    (hascending : (runs.map (·.1)).Pairwise (· < ·))
    (hruns : ∀ r ∈ runs, r.1 < units ∧ ∀ l, r.2 = some l → l < UInt32.size) :
    ∃ lines, decode format (encode format firstLine runs units) firstLine units = .ok lines ∧
      lines.length = units ∧ (∀ k < units, lines[k]? = some (lineAt format firstLine runs k)) ∧
      encode format firstLine (numbered lines 0) units = encode format firstLine runs units := by
  have hordered : Ordered units runs 0 :=
    ordered_of_pairwise hascending fun r hr => ⟨Nat.zero_le _, hruns r hr⟩
  have hdecode := decode_encode format hordered hfirst
  refine ⟨_, hdecode, length_decode hdecode, fun k hk => ?_,
    encode_numbered format firstLine hordered⟩
  rw [← carriedOver_started]
  exact getElem?_linesFrom_started format hk (some firstLine) hordered (Nat.zero_le k)

/-- Three hundred lines on after three hundred units, and two hundred lines back. -/
theorem decode_encode_runs_split :
    (1 < UInt32.size ∧
      ([(0, some 1), (300, some 301), (301, some 101)].map (·.1)).Pairwise (· < ·) ∧
      ∀ r ∈ [(0, some 1), (300, some 301), (301, some 101)],
        r.1 < 302 ∧ ∀ l, r.2 = some l → l < UInt32.size) ∧
      ∃ lines, decode .lnotab (encode .lnotab 1 [(0, some 1), (300, some 301), (301, some 101)] 302)
          1 302 = .ok lines ∧ lines.length = 302 ∧
        (∀ k < 302, lines[k]? =
          some (lineAt .lnotab 1 [(0, some 1), (300, some 301), (301, some 101)] k)) ∧
        encode .lnotab 1 (numbered lines 0) 302 =
          encode .lnotab 1 [(0, some 1), (300, some 301), (301, some 101)] 302 := by
  have hfirst : 1 < UInt32.size := by decide
  have hascending : (([(0, some 1), (300, some 301), (301, some 101)] : List (Nat × Line)).map
      (·.1)).Pairwise (· < ·) := by decide
  have hruns : ∀ r ∈ ([(0, some 1), (300, some 301), (301, some 101)] : List (Nat × Line)),
      r.1 < 302 ∧ ∀ l, r.2 = some l → l < UInt32.size := by
    simp [UInt32.size]
  exact ⟨⟨hfirst, hascending, hruns⟩, decode_encode_runs .lnotab hfirst hascending hruns⟩

end Runs

/-! ### Filling -/

/-- Writes a line to unit `unit` and to those behind it, as long as they begin before `stop`. -/
def writeUnits (stop : Nat) (line : Line) (unit : Nat) (memory : Nat → Line) : Nat → Line :=
  if unit * 2 < stop then
    writeUnits stop line (unit + 1) (Function.update memory unit line)
  else memory
termination_by stop - unit * 2

/-- A line for the addresses from `start` up to `stop`, on behalf of the table entry
`position`. -/
structure Filling where
  start : Nat
  stop : Nat
  line : Option Int
  position : Nat

namespace Filling

/-- An address is one of those of the filling. -/
def Contains (f : Filling) (address : Nat) : Prop := f.start ≤ address ∧ address < f.stop

instance (f : Filling) (address : Nat) : Decidable (f.Contains address) :=
  inferInstanceAs (Decidable (_ ∧ _))

/-- The line to write: the filling has to end within `size` bytes and the line has to be a 32 bit
number. -/
def check (size : Nat) (f : Filling) : Except DecodeError Line :=
  if size < f.stop then .error (.malformedLineTable f.position)
  else match f.line with
    | none => .ok none
    | some l =>
      if 0 ≤ l ∧ l < UInt32.size then .ok (some l.toNat)
      else .error (.malformedLineTable f.position)

/-- Writes a line to the units that begin in the filling; the first may begin behind `start`. -/
def write (f : Filling) (line : Line) (memory : Nat → Line) : Nat → Line :=
  writeUnits f.stop line ((f.start + 1) / 2) memory

end Filling

/-- Checks one filling after the other and writes each that passes, until one does not. -/
def fillAll (size : Nat) : List Filling → (Nat → Line) → (Nat → Line) × Except DecodeError Unit
  | [], memory => (memory, .ok ())
  | f :: later, memory =>
    match f.check size with
    | .error e => (memory, .error e)
    | .ok line => fillAll size later (f.write line memory)

/-- The fillings of an `lnotab` from address `start` on, where `line` is current: an entry without
bytes has none, and the last line reaches to the end of the code. -/
def lnotabFillings (size : Nat) : List LineDelta → (start : Nat) → (line : Int) →
    (position : Nat) → List Filling
  | [], start, line, position => [⟨start, size, some line, position⟩]
  | e :: rest, start, line, position =>
    let stop := start + e.bytes.toNat
    let later := lnotabFillings size rest stop (line + e.lines.toInt) (position + 1)
    if e.bytes = 0 then later else ⟨start, stop, some line, position⟩ :: later

/-- The fillings of a range table from address `start` on, where `line` is current. -/
def rangeFillings : List LineDelta → (start : Nat) → (line : Int) → (position : Nat) → List Filling
  | [], _, _, _ => []
  | e :: rest, start, line, position =>
    let stop := start + e.bytes.toNat
    let line' := if e.lines = noLine then line else line + e.lines.toInt
    ⟨start, stop, if e.lines = noLine then none else some line', position⟩ ::
      rangeFillings rest stop line' (position + 1)

/-- What the entries of a table write. -/
def fillings (format : LineFormat) (entries : List LineDelta) (firstLine units : Nat) :
    List Filling :=
  match format with
  | .lnotab => lnotabFillings (units * 2) entries 0 firstLine 0
  | .ranges => rangeFillings entries 0 firstLine 0

/-- Writes the lines of a table to memory; a table that is not a sequence of entries leaves it
alone. -/
def fillTable (format : LineFormat) (table : List UInt8) (firstLine units : Nat)
    (memory : Nat → Line) : (Nat → Line) × Except DecodeError Unit :=
  match Record.readAll 2 table with
  | .error _ => (memory, .error (.malformedLineTable (table.length / 2)))
  | .ok pairs =>
    fillAll (units * 2) (fillings format (pairs.map LineDelta.ofPair) firstLine units) memory

/-! ### Where is written -/

section Fill

variable {size stop u : Nat} {f : Filling}

theorem writeUnits_apply (stop : Nat) (line : Line) (unit : Nat) (memory : Nat → Line) (u : Nat) :
    writeUnits stop line unit memory u = if unit ≤ u ∧ u * 2 < stop then line else memory u := by
  fun_induction writeUnits stop line unit memory with
  | case1 unit memory hbefore ih =>
    rw [ih]
    by_cases heq : u = unit
    · subst heq
      rw [Function.update_self, ite_self, if_pos ⟨Nat.le_refl u, hbefore⟩]
    · have hle : unit + 1 ≤ u ↔ unit ≤ u := by omega
      rw [Function.update_of_ne heq]
      exact if_congr (and_congr_left fun _ => hle) rfl rfl
  | case2 unit memory hbehind =>
    have hno : ¬ (unit ≤ u ∧ u * 2 < stop) := by omega
    rw [if_neg hno]

theorem Filling.write_apply (f : Filling) (line : Line) (memory : Nat → Line) (u : Nat) :
    f.write line memory u = if f.Contains (u * 2) then line else memory u := by
  have hle : (f.start + 1) / 2 ≤ u ↔ f.start ≤ u * 2 := by omega
  rw [Filling.write, writeUnits_apply]
  exact if_congr (and_congr_left fun _ => hle) rfl rfl

theorem Filling.check_eq_ok {line : Line} (h : f.check size = .ok line) :
    f.stop ≤ size ∧ f.line = line.map Nat.cast := by
  unfold Filling.check at h
  split at h
  · cases h
  · rename_i hstop
    refine ⟨Nat.not_lt.mp hstop, ?_⟩
    split at h
    · rename_i hline
      obtain rfl := Except.ok.inj h
      exact hline
    · rename_i l hline
      split at h
      · rename_i hrange
        obtain rfl := Except.ok.inj h
        rw [hline, Option.map_some, Int.toNat_of_nonneg hrange.1]
      · cases h

theorem Filling.cover_eq (f : Filling) (size : Nat) :
    cover size f.start f.stop f.line f.position =
      (f.check size).map (List.replicate (unitsIn f.start f.stop)) := by
  obtain ⟨start, stop, line, position⟩ := f
  unfold cover Filling.check
  split
  · rfl
  · cases line with
    | none => rfl
    | some l =>
      dsimp only
      split <;> rfl

theorem fillAll_of_not_contains : ∀ {fs : List Filling} {memory : Nat → Line},
    (∀ f ∈ fs, f.stop ≤ size → ¬ f.Contains (u * 2)) → (fillAll size fs memory).1 u = memory u
  | [], _, _ => rfl
  | f :: fs, memory, h => by
    obtain ⟨hfirst, hrest⟩ := List.forall_mem_cons.mp h
    unfold fillAll
    cases hcheck : f.check size with
    | error e => rfl
    | ok line =>
      dsimp only
      rw [fillAll_of_not_contains hrest, f.write_apply,
        if_neg (hfirst (Filling.check_eq_ok hcheck).1)]

/-- **Nothing is written behind the code**, whatever comes of the fillings. -/
theorem fillAll_outside (hu : size ≤ u * 2) (fs : List Filling) (memory : Nat → Line) :
    (fillAll size fs memory).1 u = memory u :=
  fillAll_of_not_contains fun _ _ hstop hcontains =>
    absurd hcontains.2 (Nat.not_lt.mpr (Nat.le_trans hstop hu))

theorem fillAll_cons {line : Line} (h : f.check size = .ok line) (fs : List Filling)
    (memory : Nat → Line) :
    fillAll size (f :: fs) memory = fillAll size fs (f.write line memory) := by
  rw [fillAll, h]

theorem exists_check_of_fillAll {fs : List Filling} {memory : Nat → Line}
    (h : (fillAll size (f :: fs) memory).2 = .ok ()) : ∃ line, f.check size = .ok line := by
  unfold fillAll at h
  cases hcheck : f.check size with
  | error e =>
    rw [hcheck] at h
    cases h
  | ok line => exact ⟨line, rfl⟩

/-- The fillings follow one another from address `start` to address `stop`. One that begins in the
code does not end before it begins. -/
def Consecutive (size : Nat) : List Filling → (start stop : Nat) → Prop
  | [], start, stop => start = stop
  | f :: fs, start, stop =>
    f.start = start ∧ (start ≤ size → start ≤ f.stop) ∧ Consecutive size fs f.stop stop

theorem Consecutive.bounds : ∀ {fs : List Filling} {start : Nat} {memory : Nat → Line},
    Consecutive size fs start stop → start ≤ size → (fillAll size fs memory).2 = .ok () →
    start ≤ stop ∧ stop ≤ size ∧ ∀ f ∈ fs, start ≤ f.start ∧ f.stop ≤ stop
  | [], start, memory, h, hle, _ => by
    obtain rfl : start = stop := h
    exact ⟨Nat.le_refl _, hle, fun _ hf => absurd hf List.not_mem_nil⟩
  | f :: fs, start, memory, h, hle, hok => by
    obtain ⟨rfl, hforward, hrest⟩ := h
    obtain ⟨line, hcheck⟩ := exists_check_of_fillAll hok
    rw [fillAll_cons hcheck] at hok
    have hforward := hforward hle
    obtain ⟨hle', hstop, hlater⟩ := hrest.bounds (Filling.check_eq_ok hcheck).1 hok
    refine ⟨Nat.le_trans hforward hle', hstop,
      List.forall_mem_cons.mpr ⟨⟨Nat.le_refl _, hle'⟩, fun f' hf' => ?_⟩⟩
    exact ⟨Nat.le_trans hforward (hlater f' hf').1, (hlater f' hf').2⟩

theorem Consecutive.check_eq : ∀ {fs : List Filling} {start : Nat} {memory : Nat → Line},
    Consecutive size fs start stop → start ≤ size → (fillAll size fs memory).2 = .ok () →
    f ∈ fs → f.Contains (u * 2) → f.check size = .ok ((fillAll size fs memory).1 u)
  | [], _, _, _, _, _, hf, _ => absurd hf List.not_mem_nil
  | f' :: fs, start, memory, h, hle, hok, hf, hcontains => by
    obtain ⟨rfl, -, hrest⟩ := h
    obtain ⟨line, hcheck⟩ := exists_check_of_fillAll hok
    rw [fillAll_cons hcheck] at hok ⊢
    have hstop := (Filling.check_eq_ok hcheck).1
    rcases List.mem_cons.mp hf with rfl | hf
    · -- the later ones begin where this one ends
      obtain ⟨-, -, hlater⟩ := hrest.bounds hstop hok
      have hno : ∀ f' ∈ fs, f'.stop ≤ size → ¬ f'.Contains (u * 2) := fun f' hf' _ hcontains' =>
        absurd (Nat.lt_of_lt_of_le hcontains.2 (hlater f' hf').1) (Nat.not_lt.mpr hcontains'.1)
      rw [fillAll_of_not_contains hno, f.write_apply, if_pos hcontains, hcheck]
    · exact hrest.check_eq hstop hok hf hcontains

end Fill

/-! ### Reading is filling -/

section Read

variable {size units start stop : Nat} {fs : List Filling}

/-- The units that begin in the addresses from `start` up to `stop`. -/
def unitsBetween (start stop : Nat) : List Nat :=
  List.range' ((start + 1) / 2) (unitsIn start stop)

theorem mem_unitsBetween {u : Nat} :
    u ∈ unitsBetween start stop ↔ start ≤ u * 2 ∧ u * 2 < stop := by
  rw [unitsBetween, List.mem_range'_1, unitsIn]
  omega

theorem unitsBetween_append {mid : Nat} (h : start ≤ mid) (h' : mid ≤ stop) :
    unitsBetween start mid ++ unitsBetween mid stop = unitsBetween start stop := by
  have hmid : (start + 1) / 2 + unitsIn start mid = (mid + 1) / 2 := by
    unfold unitsIn
    omega
  rw [unitsBetween, unitsBetween, unitsBetween, ← hmid, List.range'_append_1, unitsIn_add h h']

theorem unitsBetween_zero (units : Nat) : unitsBetween 0 (units * 2) = List.range units := by
  have hall : unitsIn 0 (units * 2) = units := by
    unfold unitsIn
    omega
  rw [unitsBetween, hall, List.range_eq_range']

theorem map_unitsBetween {memory : Nat → Line} {line : Line}
    (h : ∀ u, start ≤ u * 2 → u * 2 < stop → memory u = line) :
    (unitsBetween start stop).map memory = List.replicate (unitsIn start stop) line := by
  have hlen : (unitsBetween start stop).length = unitsIn start stop := List.length_range'
  rw [← hlen, List.map_eq_replicate_iff]
  intro u hu
  obtain ⟨hstart, hstop⟩ := mem_unitsBetween.mp hu
  exact h u hstart hstop

/-- Reads the lines of fillings one after the other. -/
def readFillings (size : Nat) : List Filling → Except DecodeError (List Line)
  | [] => .ok []
  | f :: later => do
    let here ← cover size f.start f.stop f.line f.position
    let behind ← readFillings size later
    return here ++ behind

theorem decodeLnotab_eq_readFillings (size : Nat) : ∀ (entries : List LineDelta) (start : Nat)
    (line : Int) (position : Nat), decodeLnotab size entries start line position =
      readFillings size (lnotabFillings size entries start line position)
  | [], start, line, position => by
    rw [decodeLnotab, lnotabFillings, readFillings]
    cases cover size start size (some line) position with
    | error e => rfl
    | ok lines => exact congrArg Except.ok (List.append_nil lines).symm
  | e :: entries, start, line, position => by
    have hrest := decodeLnotab_eq_readFillings size entries
    rw [decodeLnotab, lnotabFillings]
    by_cases hzero : e.bytes = 0
    · rw [if_pos hzero, if_pos hzero, hrest, hzero]
      rfl
    · rw [if_neg hzero, if_neg hzero, readFillings, ← hrest]

theorem decodeRanges_eq_readFillings (size : Nat) : ∀ (entries : List LineDelta) (start : Nat)
    (line : Int) (position : Nat), decodeRanges size entries start line position =
      readFillings size (rangeFillings entries start line position)
  | [], _, _, _ => rfl
  | e :: entries, start, line, position => by
    rw [decodeRanges, rangeFillings, readFillings, decodeRanges_eq_readFillings size entries]

theorem consecutive_lnotabFillings (size : Nat) : ∀ (entries : List LineDelta) (start : Nat)
    (line : Int) (position : Nat),
    Consecutive size (lnotabFillings size entries start line position) start size
  | [], start, line, position => ⟨rfl, id, rfl⟩
  | e :: entries, start, line, position => by
    have hrest := consecutive_lnotabFillings size entries (start + e.bytes.toNat)
      (line + e.lines.toInt) (position + 1)
    rw [lnotabFillings]
    by_cases hzero : e.bytes = 0
    · rw [if_pos hzero]
      rw [hzero] at hrest ⊢
      exact hrest
    · rw [if_neg hzero]
      exact ⟨rfl, fun _ => Nat.le_add_right _ _, hrest⟩

theorem consecutive_rangeFillings (size : Nat) : ∀ (entries : List LineDelta) (start : Nat)
    (line : Int) (position : Nat),
    ∃ stop, Consecutive size (rangeFillings entries start line position) start stop
  | [], start, _, _ => ⟨start, rfl⟩
  | e :: entries, start, line, position => by
    obtain ⟨stop, hrest⟩ := consecutive_rangeFillings size entries (start + e.bytes.toNat)
      (if e.lines = noLine then line else line + e.lines.toInt) (position + 1)
    exact ⟨stop, rfl, fun _ => Nat.le_add_right _ _, hrest⟩

theorem Consecutive.readFillings_eq : ∀ {fs : List Filling} {start : Nat} (memory : Nat → Line),
    Consecutive size fs start stop → start ≤ size →
    readFillings size fs = (fillAll size fs memory).2.map fun _ =>
      (unitsBetween start stop).map (fillAll size fs memory).1
  | [], start, memory, h, _ => by
    obtain rfl : start = stop := h
    have hnone : unitsIn start start = 0 := Nat.sub_self _
    rw [unitsBetween, hnone]
    rfl
  | f :: fs, start, memory, h, hle => by
    have ⟨hstart, hforward, hrest⟩ := h
    subst hstart
    rw [readFillings, f.cover_eq size]
    cases hcheck : f.check size with
    | error e =>
      rw [fillAll, hcheck]
      rfl
    | ok line =>
      have hlater := hrest.readFillings_eq (f.write line memory) (Filling.check_eq_ok hcheck).1
      rw [hlater, ← fillAll_cons hcheck]
      cases hok : (fillAll size (f :: fs) memory).2 with
      | error e => rfl
      | ok _ =>
        obtain ⟨-, -, hfs⟩ := h.bounds hle hok
        -- no later filling writes to the units of this one
        have hhere := map_unitsBetween fun u hu hu' => Except.ok.inj
          ((h.check_eq hle hok List.mem_cons_self ⟨hu, hu'⟩).symm.trans hcheck)
        have hsplit := unitsBetween_append (hforward hle) (hfs f List.mem_cons_self).2
        rw [← hsplit, List.map_append, hhere]
        rfl

theorem Consecutive.behind {memory : Nat → Line} (h : Consecutive size fs start stop)
    (hle : start ≤ size) (hok : (fillAll size fs memory).2 = .ok ()) {u : Nat} (hu : stop ≤ u * 2) :
    (fillAll size fs memory).1 u = memory u := by
  obtain ⟨-, -, hfs⟩ := h.bounds hle hok
  refine fillAll_of_not_contains fun f hf _ hcontains => ?_
  exact absurd (Nat.lt_of_lt_of_le hcontains.2 (hfs f hf).2) (Nat.not_lt.mpr hu)

theorem Consecutive.padded_eq (h : Consecutive (units * 2) fs 0 stop) :
    (readFillings (units * 2) fs).map (fun lines =>
        lines ++ List.replicate (units - lines.length) none) =
      (fillAll (units * 2) fs fun _ => none).2.map fun _ =>
        (List.range units).map (fillAll (units * 2) fs fun _ => none).1 := by
  rw [h.readFillings_eq (fun _ => none) (Nat.zero_le _)]
  cases hok : (fillAll (units * 2) fs fun _ => none).2 with
  | error e => rfl
  | ok _ =>
    obtain ⟨hzero, hstop, -⟩ := h.bounds (Nat.zero_le _) hok
    have hnone := map_unitsBetween fun u hu (_ : u * 2 < units * 2) =>
      h.behind (Nat.zero_le _) hok hu
    have hlen : units - (unitsBetween 0 stop).length = unitsIn stop (units * 2) := by
      rw [unitsBetween, List.length_range', unitsIn, unitsIn]
      omega
    rw [← unitsBetween_zero, ← unitsBetween_append hzero hstop, List.map_append, hnone]
    simp only [Except.map, List.length_map, hlen]

/-- **Reading a table is filling memory without lines.** -/
theorem decode_eq_fillTable (format : LineFormat) (table : List UInt8) (firstLine units : Nat) :
    decode format table firstLine units =
      (fillTable format table firstLine units fun _ => none).2.map fun _ =>
        (List.range units).map (fillTable format table firstLine units fun _ => none).1 := by
  unfold decode fillTable fillings
  cases Record.readAll 2 table with
  | error e => rfl
  | ok pairs =>
    have hsize : 0 ≤ units * 2 := Nat.zero_le _
    cases format with
    | lnotab =>
      have hfollow := consecutive_lnotabFillings (units * 2) (pairs.map LineDelta.ofPair) 0
        firstLine 0
      dsimp only
      rw [decodeLnotab_eq_readFillings, hfollow.readFillings_eq _ hsize, unitsBetween_zero]
    | ranges =>
      obtain ⟨stop, hfollow⟩ :=
        consecutive_rangeFillings (units * 2) (pairs.map LineDelta.ofPair) 0 firstLine 0
      dsimp only
      rw [← hfollow.padded_eq, decodeRanges_eq_readFillings]
      rfl

end Read

/-! ### Looking up an address -/

/-- A table entry with its addresses: from where the entry before it stops up to `stop`. -/
structure Span where
  start : Nat
  stop : Nat
  lines : Int8

/-- An address is one of those of the entry. -/
def Span.Contains (s : Span) (address : Nat) : Prop := s.start ≤ address ∧ address < s.stop

/-- The entries of a table with their addresses, from `start` on. -/
def spans : List LineDelta → (start : Nat) → List Span
  | [], _ => []
  | e :: rest, start =>
    ⟨start, start + e.bytes.toNat, e.lines⟩ :: spans rest (start + e.bytes.toNat)

/-- How far entries move the line, all together. -/
def movedBy : List Span → Int
  | [] => 0
  | s :: entries => s.lines.toInt + movedBy entries

/-- What a table says about an address. In the `lnotab` format all entries count that stop there or
before. In the range format the address has no line if no entry contains it or the one that
does has none, and else those entries count, up to that one, that have a line. -/
def Shows (format : LineFormat) (firstLine : Nat) (entries : List Span) (address : Nat)
    (line : Option Int) : Prop :=
  match format with
  | .lnotab => line = some (firstLine + movedBy (entries.filter (·.stop ≤ address)))
  | .ranges =>
    ((∀ s ∈ entries, ¬ s.Contains address) → line = none) ∧
      ∀ i s, entries[i]? = some s → s.Contains address → line =
        if s.lines = noLine then none
        else some (firstLine + movedBy ((entries.take (i + 1)).filter (·.lines ≠ noLine)))

section Lookup

variable {size units firstLine address : Nat}

theorem le_stop_of_mem_spans : ∀ {entries : List LineDelta} {start : Nat} {s : Span},
    s ∈ spans entries start → start ≤ s.stop
  | e :: entries, start, s, h => by
    rcases List.mem_cons.mp h with rfl | h
    · exact Nat.le_add_right _ _
    · exact Nat.le_trans (Nat.le_add_right _ _) (le_stop_of_mem_spans h)

theorem exists_lnotabFilling (hlt : address < size) : ∀ (entries : List LineDelta) {start : Nat}
    (line : Int) (position : Nat), start ≤ address →
    ∃ f ∈ lnotabFillings size entries start line position, f.Contains address ∧
      f.line = some (line + movedBy ((spans entries start).filter (·.stop ≤ address)))
  | [], start, line, position, hle =>
    ⟨_, List.mem_singleton.mpr rfl, ⟨hle, hlt⟩, congrArg some (Int.add_zero line).symm⟩
  | e :: entries, start, line, position, hle => by
    rw [lnotabFillings, spans]
    by_cases hstop : start + e.bytes.toNat ≤ address
    · -- the entry is passed, and its change of line with it
      obtain ⟨f, hf, hcontains, hline⟩ :=
        exists_lnotabFilling hlt entries (line + e.lines.toInt) (position + 1) hstop
      refine ⟨f, ?_, hcontains, ?_⟩
      · split
        · exact hf
        · exact List.mem_cons_of_mem _ hf
      · rw [hline, List.filter_cons_of_pos (by simpa using hstop), movedBy, Int.add_assoc]
    · -- the address is in this entry, and all later ones stop behind it
      have hlater : (spans entries (start + e.bytes.toNat)).filter (·.stop ≤ address) = [] := by
        rw [List.filter_eq_nil_iff]
        intro s hs
        have hle' := le_stop_of_mem_spans hs
        have hno : ¬ s.stop ≤ address := by omega
        simpa using hno
      have hbytes : e.bytes ≠ 0 := by
        intro hzero
        rw [hzero] at hstop
        exact hstop hle
      refine ⟨⟨start, start + e.bytes.toNat, some line, position⟩, ?_,
        ⟨hle, Nat.not_le.mp hstop⟩, ?_⟩
      · rw [if_neg hbytes]
        exact List.mem_cons_self
      · rw [List.filter_cons_of_neg (by simpa using hstop), hlater]
        exact congrArg some (Int.add_zero line).symm

theorem exists_rangeFilling : ∀ (entries : List LineDelta) {start i : Nat} {s : Span} (line : Int)
    (position : Nat), (spans entries start)[i]? = some s → s.Contains address →
    ∃ f ∈ rangeFillings entries start line position, f.Contains address ∧
      f.line = if s.lines = noLine then none else
        some (line + movedBy (((spans entries start).take (i + 1)).filter (·.lines ≠ noLine)))
  | [], _, _, _, _, _, h, _ => by cases h
  | e :: entries, start, 0, s, line, position, h, hcontains => by
    obtain rfl := Option.some.inj h
    refine ⟨_, List.mem_cons_self, hcontains, ?_⟩
    dsimp only
    split
    · rfl
    · rename_i hline
      have hone : movedBy [⟨start, start + e.bytes.toNat, e.lines⟩] = e.lines.toInt :=
        Int.add_zero _
      rw [spans, List.take_succ_cons, List.take_zero,
        List.filter_cons_of_pos (by simpa using hline), List.filter_nil, hone]
  | e :: entries, start, i + 1, s, line, position, h, hcontains => by
    obtain ⟨f, hf, hin, hline⟩ := exists_rangeFilling entries
      (if e.lines = noLine then line else line + e.lines.toInt) (position + 1) h hcontains
    refine ⟨f, List.mem_cons_of_mem _ hf, hin, ?_⟩
    rw [hline, spans, List.take_succ_cons]
    by_cases hmark : e.lines = noLine
    · rw [if_pos hmark, List.filter_cons_of_neg (by simpa using hmark)]
    · rw [if_neg hmark, List.filter_cons_of_pos (by simpa using hmark), movedBy, Int.add_assoc]

theorem exists_span_of_rangeFilling : ∀ {entries : List LineDelta} {start : Nat} {line : Int}
    {position : Nat} {f : Filling}, f ∈ rangeFillings entries start line position →
    f.Contains address → ∃ s ∈ spans entries start, s.Contains address
  | e :: entries, start, line, position, f, hf, hcontains => by
    rcases List.mem_cons.mp hf with rfl | hf
    · exact ⟨_, List.mem_cons_self, hcontains⟩
    · obtain ⟨s, hs, hin⟩ := exists_span_of_rangeFilling hf hcontains
      exact ⟨s, List.mem_cons_of_mem _ hs, hin⟩

theorem shows_fillAll (format : LineFormat) (entries : List LineDelta) {u : Nat} (hu : u < units)
    (hok : (fillAll (units * 2) (fillings format entries firstLine units) fun _ => none).2 =
      .ok ()) :
    Shows format firstLine (spans entries 0) (u * 2)
      (((fillAll (units * 2) (fillings format entries firstLine units) fun _ => none).1 u).map
        Nat.cast) := by
  have hlt : u * 2 < units * 2 := by omega
  have hzero : 0 ≤ units * 2 := Nat.zero_le _
  cases format with
  | lnotab =>
    have hfollow := consecutive_lnotabFillings (units * 2) entries 0 firstLine 0
    obtain ⟨f, hf, hcontains, hline⟩ :=
      exists_lnotabFilling hlt entries firstLine 0 (Nat.zero_le (u * 2))
    have hwritten := (Filling.check_eq_ok (hfollow.check_eq hzero hok hf hcontains)).2
    exact hwritten.symm.trans hline
  | ranges =>
    obtain ⟨stop, hfollow⟩ := consecutive_rangeFillings (units * 2) entries 0 firstLine 0
    refine ⟨fun hnone => ?_, fun i s hs hcontains => ?_⟩
    · -- nothing is written outside the entries
      rw [fillings, fillAll_of_not_contains, Option.map_none]
      intro f hf _ hcontains
      obtain ⟨s, hs, hin⟩ := exists_span_of_rangeFilling hf hcontains
      exact hnone s hs hin
    · obtain ⟨f, hf, hin, hline⟩ := exists_rangeFilling entries firstLine 0 hs hcontains
      have hwritten := (Filling.check_eq_ok (hfollow.check_eq hzero hok hf hin)).2
      exact hwritten.symm.trans hline

theorem exists_entries_of_decode {format : LineFormat} {table : List UInt8} {lines : List Line}
    (h : decode format table firstLine units = .ok lines) :
    ∃ entries : List LineDelta, table = entries.flatMap LineDelta.toBytes ∧
      ∀ memory, fillTable format table firstLine units memory =
        fillAll (units * 2) (fillings format entries firstLine units) memory := by
  unfold decode at h
  unfold fillTable
  cases hpairs : Record.readAll 2 table with
  | error e =>
    rw [hpairs] at h
    cases h
  | ok pairs =>
    refine ⟨pairs.map LineDelta.ofPair, ?_, fun _ => rfl⟩
    rw [Record.readAll_two_eq_ok_iff.mp hpairs, List.flatMap_map]
    rfl

/-- **A table is read as it is looked up by address.** Reading writes the lines of the entries one
after the other, on no table beyond the code. A table that can be read is a sequence of
entries, and each unit has the line that they give its address. -/
theorem decode_by_address (format : LineFormat) (table : List UInt8) (firstLine units : Nat) :
    (decode format table firstLine units =
      (fillTable format table firstLine units fun _ => none).2.map fun _ =>
        (List.range units).map (fillTable format table firstLine units fun _ => none).1) ∧
    (∀ memory u, units ≤ u → (fillTable format table firstLine units memory).1 u = memory u) ∧
    ∀ lines, decode format table firstLine units = .ok lines → lines.length = units ∧
      ∃ entries : List LineDelta, table = entries.flatMap LineDelta.toBytes ∧
        ∀ k < units, ∃ line, lines[k]? = some line ∧
          Shows format firstLine (spans entries 0) (2 * k) (line.map Nat.cast) := by
  have hfill := decode_eq_fillTable format table firstLine units
  refine ⟨hfill, fun memory u hu => ?_, fun lines hlines => ⟨length_decode hlines, ?_⟩⟩
  · unfold fillTable
    cases Record.readAll 2 table with
    | error e => rfl
    | ok pairs => exact fillAll_outside (Nat.mul_le_mul_right 2 hu) _ memory
  · obtain ⟨entries, htable, hentries⟩ := exists_entries_of_decode hlines
    rw [hfill, hentries] at hlines
    refine ⟨entries, htable, fun k hk => ?_⟩
    cases hok : (fillAll (units * 2) (fillings format entries firstLine units) fun _ => none).2 with
    | error e =>
      rw [hok] at hlines
      cases hlines
    | ok _ =>
      rw [hok] at hlines
      obtain rfl := Except.ok.inj hlines
      refine ⟨_, ?_, Nat.mul_comm k 2 ▸ shows_fillAll format entries hk hok⟩
      rw [List.getElem?_map, List.getElem?_range hk, Option.map_some]

/-- Two units with a line, one without, and one with a line again. -/
theorem decode_by_address_ranges :
    decode .ranges [4, 1, 2, 128, 2, 255] 1 4 = .ok [some 2, some 2, none, some 1] ∧
      [some 2, some 2, none, some 1].length = 4 ∧
        ∃ entries : List LineDelta, [4, 1, 2, 128, 2, 255] = entries.flatMap LineDelta.toBytes ∧
          ∀ k < 4, ∃ line, [some 2, some 2, none, some 1][k]? = some line ∧
            Shows .ranges 1 (spans entries 0) (2 * k) (line.map Nat.cast) := by
  have hdecode :
      decode .ranges [4, 1, 2, 128, 2, 255] 1 4 = .ok [some 2, some 2, none, some 1] := rfl
  obtain ⟨-, -, hlookup⟩ := decode_by_address .ranges [4, 1, 2, 128, 2, 255] 1 4
  exact ⟨hdecode, hlookup _ hdecode⟩

end Lookup

end LineTable

end Wordcode
