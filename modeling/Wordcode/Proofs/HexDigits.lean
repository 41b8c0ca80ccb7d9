/-
# What is read as hexadecimal

What is left of a text without the separators is read pair by pair. A pair is two
hexadecimal digits, or a plus sign and one digit, which then is the whole value
(`Hex.decode_eq_ok_iff`). So a text is refused unless it has an even number of digits, with the
one exception of these plus signs (`Hex.spells_isPair_iff`).

The reader works on the bytes of the text. A character outside ASCII is no separator, and all of
its bytes are at least 128, so it has the text refused wherever the pairs cut it.

Key definitions: `Hex.bare`, `Hex.IsDigit`, `Hex.IsPair`, `Hex.IsSignedPair`, `Hex.Spells`.
Key theorems: `Hex.digit?_eq_some_iff`, `Hex.pairs?_eq_some_iff`, `Hex.decode_eq_ok_iff`,
`Hex.decode_encode`, `Hex.decode_spec`.
-/
import Wordcode.Hex
import Wordcode.Proofs.TextBytes

namespace Wordcode

namespace Hex

variable {a b c : Char} {cs : List Char} {bytes : List UInt8} {value : UInt8}

/-! ### What a text spells -/

/-- The characters that may stand between digits: ASCII white space and the underscore. -/
def separators : List Char := [' ', '\t', '\n', '\x0c', '\r', '_']

/-- A text without separators. -/
def bare (text : String) : List Char := text.toList.filter (!separators.contains ·)

/-- The character is the digit `d`, in lower or in upper case. -/
def IsDigit (c : Char) (d : Nat) : Prop :=
  d < 16 ∧ (c = Nat.digitChar d ∨ c = (Nat.digitChar d).toUpper)

/-- The characters are the two digits of `value`. -/
def IsPair (a b : Char) (value : UInt8) : Prop :=
  ∃ high low, IsDigit a high ∧ IsDigit b low ∧ value.toNat = high * 16 + low

/-- The same, or a plus sign and a digit that is `value`. -/
def IsSignedPair (a b : Char) (value : UInt8) : Prop :=
  IsPair a b value ∨ a = '+' ∧ IsDigit b value.toNat

/-- The characters, two by two, are pairs for the bytes. -/
inductive Spells (P : Char → Char → UInt8 → Prop) : List Char → List UInt8 → Prop
  | nil : Spells P [] []
  | cons {a b : Char} {value : UInt8} {cs : List Char} {bytes : List UInt8} :
    P a b value → Spells P cs bytes → Spells P (a :: b :: cs) (value :: bytes)

/-! ### Digits -/

theorem digit?_ascii : ∀ n < 128, ∀ d < 16, digit? (UInt8.ofNat n) = some (UInt8.ofNat d) ↔
    Char.ofNat n = Nat.digitChar d ∨ Char.ofNat n = (Nat.digitChar d).toUpper := by
  decide +kernel

theorem digit?_bounds : ∀ n < 256, ∀ d ∈ digit? (UInt8.ofNat n), n < 128 ∧ d.toNat < 16 := by
  decide +kernel

theorem lt_of_digit? {x d : UInt8} (h : digit? x = some d) : x.toNat < 128 ∧ d.toNat < 16 :=
  digit?_bounds x.toNat x.toNat_lt d (by rwa [UInt8.ofNat_toNat])

theorem digitChar_ascii : ∀ d < 16, (Nat.digitChar d).toNat < 128 ∧
    (Nat.digitChar d).toUpper.toNat < 128 ∧ Nat.digitChar d ∉ separators ∧
    Nat.digitChar d ≠ '+' ∧ (Nat.digitChar d).toUpper ≠ '+' := by
  decide +kernel

theorem IsDigit.ascii {d : Nat} (h : IsDigit c d) : c.toNat < 128 := by
  obtain ⟨hlower, hupper, -⟩ := digitChar_ascii d h.1
  rcases h.2 with rfl | rfl
  · exact hlower
  · exact hupper

theorem IsDigit.ne_plus {d : Nat} (h : IsDigit c d) : c ≠ '+' := by
  obtain ⟨-, -, -, hlower, hupper⟩ := digitChar_ascii d h.1
  rcases h.2 with rfl | rfl
  · exact hlower
  · exact hupper

/-- The reader knows the digits and nothing else. -/
theorem digit?_eq_some_iff (hc : c.toNat < 128) :
    digit? c.toUInt8 = some value ↔ IsDigit c value.toNat := by
  have hiff := fun hv : value.toNat < 16 => digit?_ascii c.toNat hc value.toNat hv
  rw [Char.ofNat_toNat, UInt8.ofNat_toNat] at hiff
  constructor
  · intro h
    have hv := (lt_of_digit? h).2
    exact ⟨hv, (hiff hv).mp h⟩
  · exact fun h => (hiff h.1).mpr h.2

theorem IsDigit.digit?_eq {d : Nat} (h : IsDigit c d) :
    digit? c.toUInt8 = some (UInt8.ofNat d) := by
  have hd : (UInt8.ofNat d).toNat = d := by
    rw [UInt8.toNat_ofNat', Nat.mod_eq_of_lt (Nat.lt_trans h.1 (by decide))]
  rw [digit?_eq_some_iff h.ascii, hd]
  exact h

/-! ### Pairs -/

theorem toUInt8_eq_plus_iff (hc : c.toNat < 128) : c.toUInt8 = 0x2b ↔ c = '+' := by
  constructor
  · intro h
    have hnat : c.toNat % 256 = 0x2b := congrArg UInt8.toNat h
    rw [Nat.mod_eq_of_lt (by omega)] at hnat
    exact (Char.ofNat_toNat c).symm.trans (congrArg Char.ofNat hnat)
  · rintro rfl
    rfl

theorem toNat_pair {high low : Nat} (hhigh : high < 16) (hlow : low < 16) :
    (UInt8.ofNat high * 16 + UInt8.ofNat low).toNat = high * 16 + low := by
  have h16 : (16 : UInt8).toNat = 16 := rfl
  rw [UInt8.toNat_add, UInt8.toNat_mul, UInt8.toNat_ofNat', UInt8.toNat_ofNat', h16]
  omega

theorem pair?_eq_some_iff (ha : a.toNat < 128) (hb : b.toNat < 128) :
    pair? a.toUInt8 b.toUInt8 = some value ↔ IsSignedPair a b value := by
  rw [pair?]
  by_cases hplus : a = '+'
  · -- a plus sign is no digit
    have hnot : ¬ IsPair a b value := fun ⟨_, _, hhigh, _⟩ => hhigh.ne_plus hplus
    rw [if_pos ((toUInt8_eq_plus_iff ha).mpr hplus), digit?_eq_some_iff hb, IsSignedPair,
      or_iff_right hnot, and_iff_right hplus]
  · rw [if_neg fun h => hplus ((toUInt8_eq_plus_iff ha).mp h), IsSignedPair,
      or_iff_left fun h => hplus h.1]
    constructor
    · intro h
      cases hhigh : digit? a.toUInt8 with
      | none =>
        rw [hhigh] at h
        cases h
      | some high =>
        cases hlow : digit? b.toUInt8 with
        | none =>
          rw [hhigh, hlow] at h
          cases h
        | some low =>
          rw [hhigh, hlow] at h
          obtain rfl := Option.some.inj h
          have hisHigh := (digit?_eq_some_iff ha).mp hhigh
          have hisLow := (digit?_eq_some_iff hb).mp hlow
          refine ⟨high.toNat, low.toNat, hisHigh, hisLow, ?_⟩
          rw [← toNat_pair hisHigh.1 hisLow.1, UInt8.ofNat_toNat, UInt8.ofNat_toNat]
    · rintro ⟨high, low, hhigh, hlow, hvalue⟩
      rw [hhigh.digit?_eq, hlow.digit?_eq]
      refine congrArg some (UInt8.toNat_inj.mp ?_)
      rw [toNat_pair hhigh.1 hlow.1, hvalue]

theorem IsSignedPair.ascii (h : IsSignedPair a b value) : a.toNat < 128 ∧ b.toNat < 128 := by
  rcases h with ⟨high, low, hhigh, hlow, -⟩ | ⟨rfl, hdigit⟩
  · exact ⟨hhigh.ascii, hlow.ascii⟩
  · exact ⟨by decide, hdigit.ascii⟩

/-! ### Pair after pair -/

theorem Spells.ascii (h : Spells IsSignedPair cs bytes) : ∀ c ∈ cs, c.toNat < 128 := by
  induction h with
  | nil => exact fun c hc => nomatch hc
  | cons hpair _ ih =>
    exact List.forall_mem_cons.mpr ⟨hpair.ascii.1, List.forall_mem_cons.mpr ⟨hpair.ascii.2, ih⟩⟩

theorem pairs?_cons_cons (x y : UInt8) (rest : List UInt8) :
    pairs? (x :: y :: rest) = some bytes ↔ ∃ value values, pair? x y = some value ∧
      pairs? rest = some values ∧ bytes = value :: values := by
  rw [pairs?]
  cases pair? x y with
  | none =>
    constructor
    · exact fun h => nomatch h
    · exact fun ⟨_, _, h, _⟩ => nomatch h
  | some value =>
    rw [Option.map_eq_some_iff]
    constructor
    · rintro ⟨values, hvalues, rfl⟩
      exact ⟨value, values, rfl, hvalues, rfl⟩
    · rintro ⟨value', values, hvalue, hvalues, rfl⟩
      obtain rfl := Option.some.inj hvalue
      exact ⟨values, hvalues, rfl⟩

theorem pairs?_eq_some_iff : ∀ {cs : List Char} {bytes : List UInt8}, (∀ c ∈ cs, c.toNat < 128) →
    (pairs? (cs.map Char.toUInt8) = some bytes ↔ Spells IsSignedPair cs bytes)
  | [], bytes, _ => by
    constructor
    · intro h
      obtain rfl := Option.some.inj h
      exact .nil
    · rintro ⟨⟩
      rfl
  | [c], bytes, _ => by
    constructor
    · exact fun h => nomatch h
    · exact fun h => nomatch h
  | a :: b :: cs, bytes, h => by
    obtain ⟨ha, hrest⟩ := List.forall_mem_cons.mp h
    obtain ⟨hb, hcs⟩ := List.forall_mem_cons.mp hrest
    rw [List.map_cons, List.map_cons, pairs?_cons_cons]
    constructor
    · rintro ⟨value, values, hpair, hvalues, rfl⟩
      exact .cons ((pair?_eq_some_iff ha hb).mp hpair) ((pairs?_eq_some_iff hcs).mp hvalues)
    · intro h
      cases h with
      | cons hpair hvalues =>
        exact ⟨_, _, (pair?_eq_some_iff ha hb).mpr hpair, (pairs?_eq_some_iff hcs).mpr hvalues, rfl⟩

theorem ascii_of_pair? {x y : UInt8} (h : pair? x y = some value) :
    x.toNat < 128 ∧ y.toNat < 128 := by
  rw [pair?] at h
  split at h
  case isTrue hplus => exact ⟨by rw [hplus]; decide, (lt_of_digit? h).1⟩
  case isFalse =>
    split at h
    case h_1 high low hhigh hlow => exact ⟨(lt_of_digit? hhigh).1, (lt_of_digit? hlow).1⟩
    case h_2 => cases h

/-- What is read is ASCII, and there are two of it for each byte. -/
theorem ascii_of_pairs? : ∀ {ds bytes : List UInt8}, pairs? ds = some bytes →
    ds.length = 2 * bytes.length ∧ ∀ x ∈ ds, x.toNat < 128
  | [], bytes, h => by
    obtain rfl := Option.some.inj h
    exact ⟨rfl, fun x hx => nomatch hx⟩
  | [x], bytes, h => nomatch h
  | x :: y :: ds, bytes, h => by
    obtain ⟨value, values, hpair, hvalues, rfl⟩ := (pairs?_cons_cons x y ds).mp h
    obtain ⟨hlength, hascii⟩ := ascii_of_pairs? hvalues
    obtain ⟨hx, hy⟩ := ascii_of_pair? hpair
    refine ⟨?_, List.forall_mem_cons.mpr ⟨hx, List.forall_mem_cons.mpr ⟨hy, hascii⟩⟩⟩
    rw [List.length_cons, List.length_cons, List.length_cons, hlength]
    omega

/-! ### Texts -/

/-- Separators are ASCII, so that they are found byte by byte. -/
theorem isSeparator_ascii : ∀ n < 128,
    isSeparator (UInt8.ofNat n) = separators.contains (Char.ofNat n) := by
  decide +kernel

theorem isSeparator_bounds : ∀ n < 256, isSeparator (UInt8.ofNat n) = true → n < 128 := by
  decide +kernel

theorem separators_ascii : ∀ c ∈ separators, c.toNat < 128 := by
  have hall : separators.all (·.toNat < 128) = true := by decide
  exact fun c hc => of_decide_eq_true (List.all_eq_true.mp hall c hc)

theorem filter_utf8EncodeChar (c : Char) :
    (String.utf8EncodeChar c).filter (!isSeparator ·) =
      if separators.contains c then [] else String.utf8EncodeChar c := by
  by_cases hc : c.toNat < 128
  · have hsep : isSeparator c.toUInt8 = separators.contains c := by
      have h := isSeparator_ascii c.toNat hc
      rwa [Char.ofNat_toNat] at h
    rw [Text.utf8EncodeChar_of_ascii hc, List.filter_cons, List.filter_nil, hsep]
    cases separators.contains c <;> rfl
  · have hnot : ¬ separators.contains c = true := fun h =>
      hc (separators_ascii c (List.contains_iff_mem.mp h))
    rw [if_neg hnot, List.filter_eq_self]
    intro x hx
    have hle := Text.le_of_mem_utf8EncodeChar (Nat.le_of_not_lt hc) hx
    have hx' := isSeparator_bounds x.toNat x.toNat_lt
    rw [UInt8.ofNat_toNat] at hx'
    cases hsep : isSeparator x with
    | false => rfl
    | true => exact absurd (hx' hsep) (Nat.not_lt_of_le hle)

/-- The reader keeps the bytes of the characters that are no separators. -/
theorem filter_toUTF8 (text : String) : text.toUTF8.toList.filter (!isSeparator ·) =
    (bare text).flatMap String.utf8EncodeChar := by
  rw [Text.toList_toUTF8, bare]
  induction text.toList with
  | nil => rfl
  | cons c cs ih =>
    rw [List.flatMap_cons, List.filter_append, filter_utf8EncodeChar, ih, List.filter_cons]
    cases separators.contains c <;> rfl

/-- The bytes that are read. -/
def bareBytes (text : String) : List UInt8 := (bare text).flatMap String.utf8EncodeChar

/-- Why a text that spells nothing is refused. -/
def refusal (text : String) : DecodeError :=
  if (bareBytes text).length % 2 = 0 then .invalid text else .oddLength text

theorem decode_eq (text : String) : decode text =
    match pairs? (bareBytes text) with
    | some bytes => .ok bytes
    | none => .error (refusal text) := by
  rw [decode, filter_toUTF8, ← bareBytes, refusal]
  cases hpairs : pairs? (bareBytes text) with
  | none =>
    by_cases hodd : (bareBytes text).length % 2 = 0
    · rw [if_neg (not_not_intro hodd), if_pos hodd]
    · rw [if_pos hodd, if_neg hodd]
  | some bytes =>
    have heven : (bareBytes text).length % 2 = 0 := by
      rw [(ascii_of_pairs? hpairs).1]
      exact Nat.mul_mod_right 2 _
    rw [if_neg (not_not_intro heven)]

theorem pairs?_bareBytes {text : String} :
    pairs? (bareBytes text) = some bytes ↔ Spells IsSignedPair (bare text) bytes := by
  constructor
  · intro h
    have hascii : ∀ c ∈ bare text, c.toNat < 128 := by
      intro c hc
      -- a character outside ASCII has bytes of at least 128, and no pair has one
      refine Nat.lt_of_not_le fun hle => ?_
      obtain ⟨x, hx⟩ := List.exists_mem_of_ne_nil _ (@String.utf8EncodeChar_ne_nil c)
      have hlt := (ascii_of_pairs? h).2 x (List.mem_flatMap.mpr ⟨c, hc, hx⟩)
      exact Nat.not_lt_of_le (Text.le_of_mem_utf8EncodeChar hle hx) hlt
    rw [bareBytes, Text.flatMap_utf8EncodeChar_of_ascii hascii] at h
    exact (pairs?_eq_some_iff hascii).mp h
  · intro h
    rw [bareBytes, Text.flatMap_utf8EncodeChar_of_ascii h.ascii]
    exact (pairs?_eq_some_iff h.ascii).mpr h

/-- **A text is read as what its pairs spell.** -/
theorem decode_eq_ok_iff {text : String} :
    decode text = .ok bytes ↔ Spells IsSignedPair (bare text) bytes := by
  rw [← pairs?_bareBytes, decode_eq]
  cases pairs? (bareBytes text) with
  | none =>
    constructor
    · exact fun h => nomatch h
    · exact fun h => nomatch h
  | some bytes' => rw [Except.ok.injEq, Option.some.injEq]

theorem decode_eq_error_iff {text : String} {e : DecodeError} : decode text = .error e ↔
    (¬ ∃ bytes, Spells IsSignedPair (bare text) bytes) ∧ e = refusal text := by
  simp only [← pairs?_bareBytes]
  rw [decode_eq]
  cases pairs? (bareBytes text) with
  | none => simp [eq_comm]
  | some bytes' => simp

/-! ### Digits alone -/

theorem Spells.mono {P Q : Char → Char → UInt8 → Prop} (h : Spells P cs bytes)
    (hPQ : ∀ a ∈ cs, ∀ b ∈ cs, ∀ value, P a b value → Q a b value) : Spells Q cs bytes := by
  induction h with
  | nil => exact .nil
  | cons hpair _ ih =>
    refine .cons (hPQ _ List.mem_cons_self _ (by simp) _ hpair) (ih fun a ha b hb => ?_)
    exact hPQ a (by simp [ha]) b (by simp [hb])

/-- Without plus signs only digits spell bytes. -/
theorem spells_isPair_iff :
    Spells IsPair cs bytes ↔ Spells IsSignedPair cs bytes ∧ '+' ∉ cs := by
  constructor
  · intro h
    refine ⟨h.mono fun _ _ _ _ _ => Or.inl, ?_⟩
    induction h with
    | nil => exact List.not_mem_nil
    | cons hpair _ ih =>
      obtain ⟨high, low, hhigh, hlow, -⟩ := hpair
      simp only [List.mem_cons, not_or]
      exact ⟨hhigh.ne_plus.symm, hlow.ne_plus.symm, ih⟩
  · rintro ⟨h, hplus⟩
    refine h.mono fun a ha b _ value hpair => ?_
    exact hpair.resolve_right fun hsigned => hplus (hsigned.1 ▸ ha)

/-- The texts that spell bytes in digits are those of an even number of digits. -/
theorem exists_spells_iff : ∀ cs : List Char, (∃ bytes, Spells IsPair cs bytes) ↔
    cs.length % 2 = 0 ∧ ∀ c ∈ cs, ∃ d, IsDigit c d
  | [] => iff_of_true ⟨[], .nil⟩ ⟨rfl, fun c hc => nomatch hc⟩
  | [c] => iff_of_false (fun ⟨_, h⟩ => nomatch h) fun h => nomatch h.1
  | a :: b :: cs => by
    have ih := exists_spells_iff cs
    constructor
    · rintro ⟨_, h⟩
      cases h with
      | cons hpair hrest =>
        obtain ⟨high, low, hhigh, hlow, -⟩ := hpair
        obtain ⟨heven, hdigits⟩ := ih.mp ⟨_, hrest⟩
        refine ⟨?_, ?_⟩
        · rw [List.length_cons, List.length_cons, Nat.add_assoc, Nat.add_mod_right]
          exact heven
        · exact List.forall_mem_cons.mpr ⟨⟨high, hhigh⟩, List.forall_mem_cons.mpr
            ⟨⟨low, hlow⟩, hdigits⟩⟩
    · rintro ⟨heven, hdigits⟩
      obtain ⟨⟨high, hhigh⟩, hrest⟩ := List.forall_mem_cons.mp hdigits
      obtain ⟨⟨low, hlow⟩, hcs⟩ := List.forall_mem_cons.mp hrest
      rw [List.length_cons, List.length_cons, Nat.add_assoc, Nat.add_mod_right] at heven
      obtain ⟨bytes, hbytes⟩ := ih.mpr ⟨heven, hcs⟩
      exact ⟨_, .cons ⟨high, low, hhigh, hlow, toNat_pair hhigh.1 hlow.1⟩ hbytes⟩

/-! ### Written digits -/

theorem toList_encode (bytes : List UInt8) : (encode bytes).toList =
    bytes.flatMap fun b => [Nat.digitChar (b.toNat / 16), Nat.digitChar (b.toNat % 16)] := by
  rw [encode, String.toList_join, List.flatMap_map]
  simp only [Text.hexByte, String.toList_ofList]

theorem bare_encode (bytes : List UInt8) : bare (encode bytes) = (encode bytes).toList := by
  rw [bare, List.filter_eq_self, toList_encode]
  intro c hc
  obtain ⟨b, -, hb⟩ := List.mem_flatMap.mp hc
  have hlt := b.toNat_lt
  have hnot : c ∉ separators := by
    simp only [List.mem_cons, List.not_mem_nil, or_false] at hb
    rcases hb with rfl | rfl
    · exact (digitChar_ascii (b.toNat / 16) (by omega)).2.2.1
    · exact (digitChar_ascii (b.toNat % 16) (by omega)).2.2.1
  cases hsep : separators.contains c with
  | false => rfl
  | true => exact absurd (List.contains_iff_mem.mp hsep) hnot

theorem isPair_digits (b : UInt8) :
    IsPair (Nat.digitChar (b.toNat / 16)) (Nat.digitChar (b.toNat % 16)) b := by
  have hb := b.toNat_lt
  exact ⟨b.toNat / 16, b.toNat % 16, ⟨by omega, Or.inl rfl⟩, ⟨by omega, Or.inl rfl⟩, by omega⟩

theorem spells_encode (bytes : List UInt8) : Spells IsPair (bare (encode bytes)) bytes := by
  rw [bare_encode, toList_encode]
  induction bytes with
  | nil => exact .nil
  | cons b bytes ih => exact .cons (isPair_digits b) ih

theorem decode_encode (bytes : List UInt8) : decode (encode bytes) = .ok bytes :=
  decode_eq_ok_iff.mpr (spells_isPair_iff.mp (spells_encode bytes)).1

/-- **What is read as hexadecimal.** A text that is left with an even number of digits when the
separators are taken out is read as what its pairs of digits denote, and so is what was written. Of
the other texts only those are read in which a pair is a plus sign and a digit; all the rest are
refused. -/
theorem decode_spec (text : String) :
    ((∃ bytes, Spells IsPair (bare text) bytes) ↔
      (bare text).length % 2 = 0 ∧ ∀ c ∈ bare text, ∃ d, IsDigit c d) ∧
    (∀ bytes, Spells IsPair (bare text) bytes ↔ decode text = .ok bytes ∧ '+' ∉ bare text) ∧
    (∀ bytes, decode text = .ok bytes ↔ Spells IsSignedPair (bare text) bytes) ∧
    (∀ e, decode text = .error e ↔
      (¬ ∃ bytes, Spells IsSignedPair (bare text) bytes) ∧ e = refusal text) ∧
    ∀ bytes, decode (encode bytes) = .ok bytes :=
  ⟨exists_spells_iff _, fun _ => by rw [decode_eq_ok_iff, spells_isPair_iff],
    fun _ => decode_eq_ok_iff, fun _ => decode_eq_error_iff, decode_encode⟩

/-- **A plus sign stands in for a digit**: the text has a character that is none, and is read. -/
theorem decode_plus : decode "+5" = .ok [5] ∧ ¬ ∀ c ∈ bare "+5", ∃ d, IsDigit c d := by
  have hbare : bare "+5" = ['+', '5'] := by decide
  have hfive : IsDigit '5' (5 : UInt8).toNat := ⟨by decide, Or.inl (by decide)⟩
  constructor
  · rw [decode_eq_ok_iff, hbare]
    exact .cons (Or.inr ⟨rfl, hfive⟩) .nil
  · intro h
    obtain ⟨d, hd⟩ := h '+' (by rw [hbare]; decide)
    exact hd.ne_plus rfl

end Hex

end Wordcode
