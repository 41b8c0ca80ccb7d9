/-
# Constants

The values a constants pool holds. Equality is finer than the interpreter's
own: `1`, `1.0` and `True` are three constants, floats are compared by their
bits, and a nested code object is known by its place in the table of code
objects, so two of them with the same contents are different constants.

Key definitions: `Constant`, `Constant.same`.
Key theorems: `Constant.same_iff`, hence `DecidableEq Constant`.
-/

namespace Wordcode

/-- A value in a constants pool. A frozen set keeps the order and the
repetitions it was written with. -/
inductive Constant where
  | none
  | ellipsis
  | bool (value : Bool)
  | int (value : Int)
  /-- A double, by its bits. -/
  | float (bits : UInt64)
  /-- A complex number, by the bits of its parts. -/
  | complex (real imag : UInt64)
  | str (text : String)
  | bytes (bytes : List UInt8)
  | tuple (items : List Constant)
  | frozenset (items : List Constant)
  /-- The code object at `index` in the table of code objects. -/
  | code (index : Nat)
deriving Inhabited

namespace Constant

mutual
/-- Are the two constants the same? -/
def same : Constant → Constant → Bool
  | .none, .none => true
  | .ellipsis, .ellipsis => true
  | .bool a, .bool b => a == b
  | .int a, .int b => a == b
  | .float a, .float b => a == b
  | .complex a b, .complex c d => a == c && b == d
  | .str a, .str b => a == b
  | .bytes a, .bytes b => a == b
  | .tuple as, .tuple bs => sameAll as bs
  | .frozenset as, .frozenset bs => sameAll as bs
  | .code a, .code b => a == b
  | _, _ => false

/-- Are the constants of two lists the same, one by one? -/
def sameAll : List Constant → List Constant → Bool
  | [], [] => true
  | a :: as, b :: bs => same a b && sameAll as bs
  | _, _ => false
end

mutual
theorem same_self : ∀ a : Constant, same a a = true
  | .none | .ellipsis => by simp [same]
  | .bool _ | .int _ | .float _ | .str _ | .bytes _ | .code _ => by simp [same]
  | .complex _ _ => by simp [same]
  | .tuple as | .frozenset as => by rw [same]; exact sameAll_self as

theorem sameAll_self : ∀ as : List Constant, sameAll as as = true
  | [] => by simp [sameAll]
  | a :: as => by rw [sameAll, same_self a, sameAll_self as]; rfl
end

mutual
theorem eq_of_same : ∀ {a b : Constant}, same a b = true → a = b
  | .none, b, h => by cases b <;> simp [same] at h ⊢
  | .ellipsis, b, h => by cases b <;> simp [same] at h ⊢
  | .bool _, b, h => by cases b <;> simp [same] at h ⊢; exact h
  | .int _, b, h => by cases b <;> simp [same] at h ⊢; exact h
  | .float _, b, h => by cases b <;> simp [same] at h ⊢; exact h
  | .complex _ _, b, h => by cases b <;> simp [same] at h ⊢; exact h
  | .str _, b, h => by cases b <;> simp [same] at h ⊢; exact h
  | .bytes _, b, h => by cases b <;> simp [same] at h ⊢; exact h
  | .tuple as, b, h => by
    cases b <;> simp only [same, Bool.false_eq_true] at h
    rw [eq_of_sameAll h]
  | .frozenset as, b, h => by
    cases b <;> simp only [same, Bool.false_eq_true] at h
    rw [eq_of_sameAll h]
  | .code _, b, h => by cases b <;> simp [same] at h ⊢; exact h

theorem eq_of_sameAll : ∀ {as bs : List Constant}, sameAll as bs = true → as = bs
  | [], bs, h => by cases bs <;> simp [sameAll] at h ⊢
  | a :: as, bs, h => by
    cases bs with
    | nil => simp [sameAll] at h
    | cons b bs =>
      rw [sameAll, Bool.and_eq_true] at h
      rw [eq_of_same h.1, eq_of_sameAll h.2]
end

/-- `same` decides equality. -/
theorem same_iff {a b : Constant} : same a b = true ↔ a = b :=
  ⟨eq_of_same, fun h => h ▸ same_self a⟩

instance : DecidableEq Constant := fun _ _ => decidable_of_iff _ same_iff

end Constant

end Wordcode
