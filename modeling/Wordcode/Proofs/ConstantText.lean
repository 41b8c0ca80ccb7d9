/-
# Constants read back from their text

A constant without floats and without parts is shown as a keyword, as decimal digits or between
quotes. The reader tells these apart by their first character, and knows the keywords and the
numbers again. Between quotes it takes every character literally (`Constant.literal`), while the
text has escapes in it. So a text or bytes come back if nothing in them is shown by an escape,
and as another constant if something is (`Constant.read?_text`).

Key definitions: `Constant.Simple`, `Constant.literal`, `Constant.Unescaped`.
Key theorems: `Text.strip_eq_self`, `Decimal.readInt?_toString`, `Constant.read?_toString`,
`Constant.read?_quote`, `Constant.read?_quoteBytes`, `Constant.read?_text`.
-/
import Wordcode.Constant.Reading
import Wordcode.Constant.Text
import Wordcode.Proofs.TextBytes

namespace Wordcode

/-! ### White space -/

namespace Text

theorem dropWhile_eq_self {cs : List Char} (h : ∀ c ∈ cs.head?, isBlank c = false) :
    cs.dropWhile isBlank = cs := by
  cases cs with
  | nil => rfl
  | cons c cs =>
    rw [List.dropWhile_cons, h c rfl]
    rfl

/-- A text that neither begins nor ends with white space stays as it is. -/
theorem strip_eq_self {s : String} (hfirst : ∀ c ∈ s.toList.head?, isBlank c = false)
    (hlast : ∀ c ∈ s.toList.getLast?, isBlank c = false) : strip s = s := by
  rw [← List.head?_reverse] at hlast
  rw [strip, dropWhile_eq_self hfirst, dropWhile_eq_self hlast, List.reverse_reverse,
    String.ofList_toList]

theorem strip_of_toList {s : String} {first last : Char} {between : List Char}
    (hs : s.toList = first :: (between ++ [last])) (hfirst : isBlank first = false)
    (hlast : isBlank last = false) : strip s = s := by
  refine strip_eq_self (fun c hc => ?_) (fun c hc => ?_)
  · rw [hs, List.head?_cons] at hc
    exact Option.some.inj hc ▸ hfirst
  · rw [hs, ← List.cons_append, List.getLast?_concat] at hc
    exact Option.some.inj hc ▸ hlast

end Text

/-! ### Numbers -/

namespace Decimal

theorem takeSign_cons {c : Char} {cs : List Char} (hminus : c ≠ '-') (hplus : c ≠ '+') :
    takeSign (c :: cs) = (false, c :: cs) := by
  rw [takeSign]
  · exact fun _ h => hminus (List.cons.inj h).1
  · exact fun _ h => hplus (List.cons.inj h).1

theorem ofDigits_toDigits (n : Nat) : ofDigits (Nat.toDigits 10 n) = n := by
  have hfold : ∀ (cs : List Char) (start : Nat),
      cs.foldl (fun n c => n * 10 + (c.toNat - '0'.toNat)) start =
        Nat.ofDigitChars 10 cs start := by
    intro cs start
    rw [Nat.ofDigitChars_eq_foldl]
    simp only [Nat.mul_comm]
  rw [ofDigits, hfold, Nat.ofDigitChars_ten_toDigits]

theorem isDigit_toDigits {n : Nat} {c : Char} (h : c ∈ Nat.toDigits 10 n) : c.isDigit = true :=
  Nat.isDigit_of_mem_toDigits (by decide) (by decide) h

theorem takeSign_toDigits (n : Nat) :
    takeSign (Nat.toDigits 10 n) = (false, Nat.toDigits 10 n) := by
  cases hdigits : Nat.toDigits 10 n with
  | nil => rfl
  | cons c cs =>
    have hc : c.isDigit = true := isDigit_toDigits (n := n) (hdigits ▸ List.mem_cons_self)
    refine takeSign_cons ?_ ?_
    · rintro rfl
      cases hc
    · rintro rfl
      cases hc

theorem toList_toString (i : Int) : (toString i).toList =
    if 0 ≤ i then Nat.toDigits 10 i.toNat else '-' :: Nat.toDigits 10 (-i).toNat := by
  rw [Int.toString_eq_repr, Int.repr_eq_if]
  split
  · exact Nat.toList_repr
  · rw [String.toList_append, Nat.toList_repr]
    rfl

theorem toString_ne_nil (i : Int) : (toString i).toList ≠ [] := by
  rw [toList_toString]
  split
  · exact Nat.toDigits_ne_nil
  · exact List.cons_ne_nil _ _

theorem mem_toString {i : Int} : ∀ c ∈ (toString i).toList, c = '-' ∨ c.isDigit = true := by
  intro c hc
  rw [toList_toString] at hc
  split at hc
  case isTrue => exact Or.inr (isDigit_toDigits hc)
  case isFalse => exact (List.mem_cons.mp hc).imp_right isDigit_toDigits

theorem isBlank_eq_false {c : Char} (h : c = '-' ∨ c.isDigit = true) : Text.isBlank c = false := by
  rcases h with rfl | h
  · decide
  · obtain ⟨hlow, hhigh⟩ := Char.isDigit_iff_toNat.mp h
    have hlow' : 48 ≤ c.toNat := hlow
    have hhigh' : c.toNat ≤ 57 := hhigh
    simp only [Text.isBlank, Bool.or_eq_false_iff, Bool.and_eq_false_iff, decide_eq_false_iff_not]
    omega

theorem readInt?_toString {i : Int} (hmin : Int64.minValue.toInt ≤ i)
    (hmax : i ≤ Int64.maxValue.toInt) : readInt? (toString i) = some i := by
  have hall : ∀ n : Nat, (Nat.toDigits 10 n).all Char.isDigit = true := fun n =>
    List.all_eq_true.mpr fun c hc => isDigit_toDigits hc
  have hne : ∀ n : Nat, (Nat.toDigits 10 n).isEmpty = false := fun n =>
    List.isEmpty_eq_false_iff.mpr Nat.toDigits_ne_nil
  rw [readInt?, toList_toString]
  by_cases hi : 0 ≤ i
  · rw [if_pos hi, takeSign_toDigits]
    simp only [hall, hne, ofDigits_toDigits, Int.toNat_of_nonneg hi, Bool.not_true, Bool.or_self,
      Bool.false_eq_true, if_false]
    exact if_pos ⟨hmin, hmax⟩
  · have hneg : -(((-i).toNat : Nat) : Int) = i := by omega
    rw [if_neg hi, takeSign]
    simp only [hall, hne, ofDigits_toDigits, hneg, Bool.not_true, Bool.or_self,
      Bool.false_eq_true, if_false, if_true]
    exact if_pos ⟨hmin, hmax⟩

/-! Quoted texts begin with a double quote, and quoted bytes with a `b`. No number does. -/

section Quoted

variable {text : String} {c : Char} {cs : List Char}

theorem readInt?_of_not_isDigit (htext : text.toList = c :: cs) (hminus : c ≠ '-')
    (hplus : c ≠ '+') (hdigit : c.isDigit = false) : readInt? text = none := by
  rw [readInt?, htext, takeSign_cons hminus hplus]
  simp only [List.isEmpty_cons, List.all_cons, hdigit, Bool.false_and, Bool.not_false,
    Bool.false_or, if_true]

theorem takeMantissa?_of_not_isDigit (hdot : c ≠ '.') (hdigit : c.isDigit = false) :
    takeMantissa? (c :: cs) = none := by
  have hwhole : (c :: cs).takeWhile Char.isDigit = [] := by
    rw [List.takeWhile_cons, hdigit]
    rfl
  have hrest : (c :: cs).dropWhile Char.isDigit = c :: cs := by
    rw [List.dropWhile_cons, hdigit]
    rfl
  rw [takeMantissa?]
  simp only [hwhole, hrest]
  split
  case h_1 more h => exact absurd (List.cons.inj h).1 hdot
  case h_2 => rfl

/-- A float begins with a sign, a digit, a point, or a letter of `inf` or `nan`. -/
theorem readFloat?_of_head (htext : text.toList = c :: cs) (hminus : c ≠ '-') (hplus : c ≠ '+')
    (hdot : c ≠ '.') (hdigit : c.isDigit = false) (hinf : c.toLower ≠ 'i')
    (hnan : c.toLower ≠ 'n') : readFloat? text = none := by
  have hword : ∀ word : String, word.toList.head? ≠ some c.toLower →
      String.ofList ((c :: cs).map Char.toLower) ≠ word := by
    rintro _ hne rfl
    exact hne (by rw [String.toList_ofList]; rfl)
  have hinf' := hword "inf" (fun h => hinf (Option.some.inj h).symm)
  have hinfinity := hword "infinity" (fun h => hinf (Option.some.inj h).symm)
  have hnan' := hword "nan" (fun h => hnan (Option.some.inj h).symm)
  rw [readFloat?, htext, takeSign_cons hminus hplus]
  simp only [readUnsigned?, takeMantissa?_of_not_isDigit hdot hdigit]
  rw [if_neg (not_or.mpr ⟨hinf', hinfinity⟩), if_neg hnan']
  rfl

theorem not_number (htext : text.toList = c :: cs) (hc : c = '"' ∨ c = 'b') :
    readInt? text = none ∧ readFloat? text = none := by
  rcases hc with rfl | rfl
  · exact ⟨readInt?_of_not_isDigit htext (by decide) (by decide) (by decide),
      readFloat?_of_head htext (by decide) (by decide) (by decide) (by decide) (by decide)
        (by decide)⟩
  · exact ⟨readInt?_of_not_isDigit htext (by decide) (by decide) (by decide),
      readFloat?_of_head htext (by decide) (by decide) (by decide) (by decide) (by decide)
        (by decide)⟩

end Quoted

end Decimal

/-! ### Escapes -/

namespace Text

variable {c : Char} {b : UInt8}

theorem length_le_length_flatMap {α : Type} {f : α → List α} (hne : ∀ a, f a ≠ []) :
    ∀ l : List α, l.length ≤ (l.flatMap f).length
  | [] => Nat.le_refl _
  | a :: l => by
    have hpos := List.length_pos_iff.mpr (hne a)
    have hle := length_le_length_flatMap hne l
    rw [List.flatMap_cons, List.length_append, List.length_cons]
    omega

/-- If no element of a list is replaced by nothing, then the list stays as it is only if each is
replaced by itself. -/
theorem flatMap_eq_self_iff {α : Type} {f : α → List α} (hne : ∀ a, f a ≠ []) :
    ∀ l : List α, l.flatMap f = l ↔ ∀ a ∈ l, f a = [a]
  | [] => iff_of_true rfl fun a ha => nomatch ha
  | a :: l => by
    rw [List.flatMap_cons, List.forall_mem_cons, ← flatMap_eq_self_iff hne l]
    constructor
    · intro h
      obtain ⟨a', rest, hfa⟩ := List.exists_cons_of_ne_nil (hne a)
      rw [hfa, List.cons_append, List.cons.injEq] at h
      obtain ⟨rfl, hrest⟩ := h
      -- what `l` is replaced by is no shorter than `l`, so nothing is left for `rest`
      have hnil : rest = [] := by
        have hle := length_le_length_flatMap hne l
        have heq := congrArg List.length hrest
        rw [List.length_append] at heq
        exact List.length_eq_zero_iff.mp (by omega)
      rw [hfa, hnil]
      rw [hnil, List.nil_append] at hrest
      exact ⟨rfl, hrest⟩
    · rintro ⟨hfa, hrest⟩
      rw [hfa, hrest]
      rfl

theorem not_isPrintable_of_lt (h : c.toNat < 0x20) : isPrintable c = false := by
  rw [isPrintable, printableChanges, insideFrom, if_pos h]

/-- A character is shown as it is, or by an escape, which is longer. -/
theorem escape_cases (c : Char) :
    ((escape c).toList = [c] ∧ c ≠ '"' ∧ c ≠ '\\' ∧ isPrintable c = true) ∨
      (1 < (escape c).toList.length ∧ ¬ (c ≠ '"' ∧ c ≠ '\\' ∧ isPrintable c = true)) := by
  -- the control characters that have short escapes are not printable either
  have hcontrol : c.toNat < 0x20 → ¬ (c ≠ '"' ∧ c ≠ '\\' ∧ isPrintable c = true) := by
    rintro hlt ⟨-, -, hprintable⟩
    rw [not_isPrintable_of_lt hlt] at hprintable
    cases hprintable
  rw [escape]
  split
  case isTrue hquote => exact Or.inr ⟨by decide, fun h => h.1 hquote⟩
  case isFalse hquote =>
  split
  case isTrue hslash => exact Or.inr ⟨by decide, fun h => h.2.1 hslash⟩
  case isFalse hslash =>
  split
  case isTrue htab => exact Or.inr ⟨by decide, hcontrol (by rw [htab]; decide)⟩
  case isFalse =>
  split
  case isTrue hreturn => exact Or.inr ⟨by decide, hcontrol (by rw [hreturn]; decide)⟩
  case isFalse =>
  split
  case isTrue hline => exact Or.inr ⟨by decide, hcontrol (by rw [hline]; decide)⟩
  case isFalse =>
  split
  case isTrue hnull => exact Or.inr ⟨by decide, hcontrol (by rw [hnull]; decide)⟩
  case isFalse =>
  split
  case isTrue hprintable =>
    exact Or.inl ⟨String.toList_singleton c, hquote, hslash, hprintable⟩
  case isFalse hprintable =>
    refine Or.inr ⟨?_, fun h => hprintable h.2.2⟩
    rw [String.toList_append, String.toList_append, List.length_append, List.length_append]
    have hopen : ("\\u\x7b" : String).toList.length = 3 := by decide
    omega

theorem escape_ne_nil (c : Char) : (escape c).toList ≠ [] := by
  rcases escape_cases c with ⟨h, -⟩ | ⟨h, -⟩
  · rw [h]
    exact List.cons_ne_nil _ _
  · exact List.ne_nil_of_length_pos (by omega)

theorem escape_eq_singleton_iff :
    (escape c).toList = [c] ↔ c ≠ '"' ∧ c ≠ '\\' ∧ isPrintable c = true := by
  rcases escape_cases c with ⟨h, hplain⟩ | ⟨h, hplain⟩
  · exact iff_of_true h hplain
  · refine iff_of_false (fun heq => ?_) hplain
    rw [heq] at h
    exact absurd h (Nat.lt_irrefl 1)

/-- A byte is shown as the character it is in ASCII, or by an escape, which is longer. -/
theorem escapeByte_cases (b : UInt8) :
    ((escapeByte b).toList = [Char.ofNat b.toNat] ∧
        0x20 ≤ b ∧ b ≤ 0x7e ∧ b ≠ 0x27 ∧ b ≠ 0x5c) ∨
      (1 < (escapeByte b).toList.length ∧ ¬ (0x20 ≤ b ∧ b ≤ 0x7e ∧ b ≠ 0x27 ∧ b ≠ 0x5c)) := by
  rw [escapeByte]
  split
  case isTrue hquote => exact Or.inr ⟨by decide, fun h => h.2.2.1 hquote⟩
  case isFalse hquote =>
  split
  case isTrue hslash => exact Or.inr ⟨by decide, fun h => h.2.2.2 hslash⟩
  case isFalse hslash =>
  split
  case isTrue hvisible =>
    exact Or.inl ⟨String.toList_singleton _, hvisible.1, hvisible.2, hquote, hslash⟩
  case isFalse hvisible =>
    refine Or.inr ⟨?_, fun h => hvisible ⟨h.1, h.2.1⟩⟩
    rw [String.toList_append, List.length_append]
    have hopen : ("\\x" : String).toList.length = 2 := by decide
    omega

theorem escapeByte_ascii (b : UInt8) : ∀ c ∈ (escapeByte b).toList, c.toNat < 128 := by
  have hall : ∀ n < 256, (escapeByte (UInt8.ofNat n)).toList.all (·.toNat < 128) = true := by
    decide +kernel
  have h := hall b.toNat b.toNat_lt
  rw [UInt8.ofNat_toNat] at h
  exact fun c hc => of_decide_eq_true (List.all_eq_true.mp h c hc)

/-- The bytes of the characters that a byte is shown by. -/
def escapedByte (b : UInt8) : List UInt8 := (escapeByte b).toList.map Char.toUInt8

theorem escapedByte_ne_nil (b : UInt8) : escapedByte b ≠ [] := by
  rw [escapedByte, ne_eq, List.map_eq_nil_iff]
  rcases escapeByte_cases b with ⟨h, -⟩ | ⟨h, -⟩
  · rw [h]
    exact List.cons_ne_nil _ _
  · exact List.ne_nil_of_length_pos (by omega)

theorem escapedByte_eq_singleton_iff :
    escapedByte b = [b] ↔ 0x20 ≤ b ∧ b ≤ 0x7e ∧ b ≠ 0x27 ∧ b ≠ 0x5c := by
  rw [escapedByte]
  rcases escapeByte_cases b with ⟨h, hplain⟩ | ⟨h, hplain⟩
  · rw [h]
    exact iff_of_true (congrArg (fun b => [b]) (toUInt8_ofNat b)) hplain
  · refine iff_of_false (fun heq => ?_) hplain
    have hlength := congrArg List.length heq
    rw [List.length_map, List.length_singleton] at hlength
    omega

/-- The escapes are ASCII, so their bytes are their characters. -/
theorem toUTF8_join_escapeByte (bs : List UInt8) :
    (String.join (bs.map escapeByte)).toUTF8.toList = bs.flatMap escapedByte := by
  have hascii : ∀ c ∈ (bs.map escapeByte).flatMap String.toList, c.toNat < 128 := by
    intro c hc
    rw [List.flatMap_map] at hc
    obtain ⟨b, -, hb⟩ := List.mem_flatMap.mp hc
    exact escapeByte_ascii b c hb
  rw [toList_toUTF8, String.toList_join, flatMap_utf8EncodeChar_of_ascii hascii, List.flatMap_map,
    List.map_flatMap]
  rfl

end Text

/-! ### Reading -/

namespace Constant

section Reading

variable {text : String} {c : Char} {cs : List Char}

/-- A text that begins with none of the letters of the keywords is no keyword. -/
theorem ne_keyword (htext : text.toList = c :: cs) (hc : c ∉ ['N', 'E', '.', 'T', 'F']) :
    text ≠ "None" ∧ ¬ (text = "Ellipsis" ∨ text = "...") ∧ text ≠ "True" ∧ text ≠ "False" := by
  have hne : ∀ (word : String) (first : Char), word.toList.head? = some first →
      first ∈ ['N', 'E', '.', 'T', 'F'] → text ≠ word := by
    rintro word first hword hfirst rfl
    rw [htext, List.head?_cons, Option.some.injEq] at hword
    exact hc (hword ▸ hfirst)
  exact ⟨hne _ 'N' (by decide) (by decide),
    not_or.mpr ⟨hne _ 'E' (by decide) (by decide), hne _ '.' (by decide) (by decide)⟩,
    hne _ 'T' (by decide) (by decide), hne _ 'F' (by decide) (by decide)⟩

theorem read?_of_readInt? {i : Int} (hstrip : Text.strip text = text)
    (htext : text.toList = c :: cs) (hc : c ∉ ['N', 'E', '.', 'T', 'F'])
    (hint : Decimal.readInt? text = some i) : read? text = some (.int i) := by
  obtain ⟨hnone, hellipsis, htrue, hfalse⟩ := ne_keyword htext hc
  rw [read?]
  simp only [hstrip, if_neg hnone, if_neg hellipsis, if_neg htrue, if_neg hfalse, hint]

theorem read?_of_unquote? {s : String} (hstrip : Text.strip text = text)
    (htext : text.toList = c :: cs) (hc : c ∉ ['N', 'E', '.', 'T', 'F'])
    (hint : Decimal.readInt? text = Option.none)
    (hfloat : Decimal.readFloat? text = Option.none)
    (hquote : unquote? text.toList = some s) : read? text = some (.str s) := by
  obtain ⟨hnone, hellipsis, htrue, hfalse⟩ := ne_keyword htext hc
  rw [read?]
  simp only [hstrip, if_neg hnone, if_neg hellipsis, if_neg htrue, if_neg hfalse, hint, hfloat,
    hquote]

theorem read?_of_unquoteBytes? {bs : List UInt8} (hstrip : Text.strip text = text)
    (htext : text.toList = c :: cs) (hc : c ∉ ['N', 'E', '.', 'T', 'F'])
    (hint : Decimal.readInt? text = Option.none)
    (hfloat : Decimal.readFloat? text = Option.none)
    (hquote : unquote? text.toList = Option.none) (hbytes : unquoteBytes? text.toList = some bs) :
    read? text = some (.bytes bs) := by
  obtain ⟨hnone, hellipsis, htrue, hfalse⟩ := ne_keyword htext hc
  rw [read?]
  simp only [hstrip, if_neg hnone, if_neg hellipsis, if_neg htrue, if_neg hfalse, hint, hfloat,
    hquote, hbytes]

end Reading

/-! ### The constants -/

theorem unquote?_cons_concat {q : Char} (hq : q = '\'' ∨ q = '"') (inner : List Char) :
    unquote? (q :: (inner ++ [q])) = some (String.ofList inner) := by
  rw [unquote?, if_pos ⟨hq, List.getLast?_concat⟩, List.dropLast_concat]

theorem toList_quote (s : String) :
    (Text.quote s).toList = '"' :: ((String.join (s.toList.map Text.escape)).toList ++ ['"']) := by
  rw [Text.quote, String.toList_append, String.toList_append]
  rfl

theorem toList_quoteBytes (bs : List UInt8) : (Text.quoteBytes bs).toList =
    'b' :: ('\'' :: (String.join (bs.map Text.escapeByte)).toList ++ ['\'']) := by
  rw [Text.quoteBytes, String.toList_append, String.toList_append]
  rfl

theorem read?_quote (s : String) :
    read? (Text.quote s) = some (.str (String.join (s.toList.map Text.escape))) := by
  have htext := toList_quote s
  have hstrip : Text.strip (Text.quote s) = Text.quote s :=
    Text.strip_of_toList htext (by decide) (by decide)
  obtain ⟨hint, hfloat⟩ := Decimal.not_number htext (Or.inl rfl)
  refine read?_of_unquote? hstrip htext (by decide) hint hfloat ?_
  rw [htext, unquote?_cons_concat (Or.inr rfl), String.ofList_toList]

theorem read?_quoteBytes (bs : List UInt8) :
    read? (Text.quoteBytes bs) = some (.bytes (bs.flatMap Text.escapedByte)) := by
  have htext := toList_quoteBytes bs
  have hstrip : Text.strip (Text.quoteBytes bs) = Text.quoteBytes bs :=
    Text.strip_of_toList htext (by decide) (by decide)
  obtain ⟨hint, hfloat⟩ := Decimal.not_number htext (Or.inr rfl)
  refine read?_of_unquoteBytes? hstrip htext (by decide) hint hfloat ?_ ?_
  · rw [htext, unquote?]
    exact if_neg fun h => absurd h.1 (by decide)
  · rw [htext, unquoteBytes?, List.cons_append, unquote?_cons_concat (Or.inl rfl),
      Option.map_some, String.ofList_toList, Text.toUTF8_join_escapeByte]

/-- The reader begins with the text as it is, and finds no keyword. -/
theorem read?_toString {i : Int} (hmin : Int64.minValue.toInt ≤ i)
    (hmax : i ≤ Int64.maxValue.toInt) : read? (toString i) = some (.int i) := by
  have hchars := Decimal.mem_toString (i := i)
  cases htext : (toString i).toList with
  | nil => exact absurd htext (Decimal.toString_ne_nil i)
  | cons c cs =>
    have hc := hchars c (htext ▸ List.mem_cons_self)
    have hstrip : Text.strip (toString i) = toString i :=
      Text.strip_eq_self
        (fun c hc => Decimal.isBlank_eq_false (hchars c (List.mem_of_head? hc)))
        (fun c hc => Decimal.isBlank_eq_false (hchars c (List.mem_of_getLast? hc)))
    refine read?_of_readInt? hstrip htext ?_ (Decimal.readInt?_toString hmin hmax)
    intro hmem
    simp only [List.mem_cons, List.not_mem_nil, or_false] at hmem
    rcases hmem with rfl | rfl | rfl | rfl | rfl <;> exact absurd hc (by decide)

/-- The constants that have neither floats nor parts. Whole numbers are those of 64 bits. -/
def Simple : Constant → Prop
  | .none | .ellipsis | .bool _ | .str _ | .bytes _ => True
  | .int i => Int64.minValue.toInt ≤ i ∧ i ≤ Int64.maxValue.toInt
  | .float _ | .complex _ _ | .tuple _ | .frozenset _ | .code _ => False

/-- The constant with the escapes of its text put in. -/
def literal : Constant → Constant
  | .str s => .str (String.join (s.toList.map Text.escape))
  | .bytes bs => .bytes (bs.flatMap Text.escapedByte)
  | c => c

/-- Nothing in the constant is shown by an escape. -/
def Unescaped : Constant → Prop
  | .str s => ∀ c ∈ s.toList, c ≠ '"' ∧ c ≠ '\\' ∧ Text.isPrintable c = true
  | .bytes bs => ∀ b ∈ bs, 0x20 ≤ b ∧ b ≤ 0x7e ∧ b ≠ 0x27 ∧ b ≠ 0x5c
  | _ => True

instance : DecidablePred Unescaped
  | .str s => List.decidableBAll _ s.toList
  | .bytes bs => List.decidableBAll _ bs
  | .none | .ellipsis | .bool _ | .int _ | .float _ | .complex _ _ | .tuple _ | .frozenset _
  | .code _ => .isTrue trivial

theorem literal_eq_self_iff (c : Constant) : c.literal = c ↔ c.Unescaped := by
  cases c with
  | str s =>
    rw [literal, Unescaped, Constant.str.injEq, ← String.toList_inj, String.toList_join,
      List.flatMap_map, Text.flatMap_eq_self_iff Text.escape_ne_nil]
    exact forall₂_congr fun _ _ => Text.escape_eq_singleton_iff
  | bytes bs =>
    rw [literal, Unescaped, Constant.bytes.injEq, Text.flatMap_eq_self_iff Text.escapedByte_ne_nil]
    exact forall₂_congr fun _ _ => Text.escapedByte_eq_singleton_iff
  | _ => exact iff_of_true rfl trivial

theorem read?_text_eq (codeName : Nat → String) {c : Constant} (h : c.Simple) :
    read? (text codeName c) = some c.literal := by
  cases c with
  | none =>
    have hread : read? "None" = some .none := by decide
    exact hread
  | ellipsis =>
    have hread : read? "Ellipsis" = some .ellipsis := by decide
    exact hread
  | bool b =>
    have hread : ∀ b, read? (if b then "True" else "False") = some (.bool b) := by decide
    exact hread b
  | int i => exact read?_toString h.1 h.2
  | str s => exact read?_quote s
  | bytes bs => exact read?_quoteBytes bs
  | _ => exact h.elim

/-- **Constants read back from their text.** A simple constant is read back as the constant that
has the escapes of its text in it, so as itself just when there are none. -/
theorem read?_text (codeName : Nat → String) {c : Constant} (h : c.Simple) :
    read? (text codeName c) = some c.literal ∧
      (read? (text codeName c) = some c ↔ c.Unescaped) := by
  refine ⟨read?_text_eq codeName h, ?_⟩
  rw [read?_text_eq codeName h, Option.some.injEq]
  exact literal_eq_self_iff c

/-- A text is shown between quotes, and so is not taken for the keyword it spells. -/
theorem read?_text_keyword : (Constant.str "None").Simple ∧ (Constant.str "None").Unescaped ∧
    read? (text (fun _ => "") (.str "None")) = some (.str "None") := by
  have hsimple : (Constant.str "None").Simple := trivial
  have hunescaped : (Constant.str "None").Unescaped := by decide
  exact ⟨hsimple, hunescaped, (read?_text (fun _ => "") hsimple).2.mpr hunescaped⟩

/-- **An escape is taken literally**: a text of one quote comes back with a backslash. -/
theorem read?_escaped_quote : (Constant.str "\"").Simple ∧
    text (fun _ => "") (.str "\"") = "\"\\\"\"" ∧
    read? "\"\\\"\"" = some (.str "\\\"") ∧ Constant.str "\\\"" ≠ .str "\"" := by
  have htext : Text.quote "\"" = "\"\\\"\"" := by decide
  refine ⟨trivial, htext, ?_, by decide⟩
  rw [← htext, read?_quote]
  decide

end Constant

end Wordcode
