import NeuralDispatch.Single

/-!
# Byte strings and little-endian words

Memory pools, constants and cache files are lists of bytes.  A 32-bit word is written as four
bytes, the low one first.

* `word_le32` — reading four bytes of a written word gives the word back.
* `toSingles?_ofSingles` — a written tensor reads back as itself.
-/

namespace NeuralDispatch

/-- A string of bytes. -/
abbrev Bytes := List UInt8

namespace Bytes

/-! ## Words -/

/-- The four bytes of a word, the low one first. -/
def le32 (w : UInt32) : Bytes :=
  [UInt8.ofNat w.toNat, UInt8.ofNat (w.toNat / 256), UInt8.ofNat (w.toNat / 65536),
    UInt8.ofNat (w.toNat / 16777216)]

/-- The word that four bytes stand for, the low one first. -/
def word (a b c d : UInt8) : UInt32 :=
  UInt32.ofNat (a.toNat + 256 * b.toNat + 65536 * c.toNat + 16777216 * d.toNat)

@[simp] theorem length_le32 (w : UInt32) : (le32 w).length = 4 := rfl

theorem word_le32 (w : UInt32) :
    word (UInt8.ofNat w.toNat) (UInt8.ofNat (w.toNat / 256)) (UInt8.ofNat (w.toNat / 65536))
      (UInt8.ofNat (w.toNat / 16777216)) = w := by
  have h := w.toNat_lt
  apply UInt32.toNat_inj.1
  simp only [word, UInt8.toNat_ofNat', UInt32.toNat_ofNat']
  omega

/-! ## Tensors of single-precision words -/

/-- The words of a byte string, if it is a whole number of them (`to_f32`). -/
def toSingles? : Bytes → Option (List Single)
  | [] => some []
  | a :: b :: c :: d :: rest => (toSingles? rest).map (⟨word a b c d⟩ :: ·)
  | _ => none

/-- The bytes of a list of words. -/
def ofSingles (xs : List Single) : Bytes := xs.flatMap fun x => le32 x.bits

@[simp] theorem ofSingles_cons (x : Single) (xs : List Single) :
    ofSingles (x :: xs) = le32 x.bits ++ ofSingles xs := rfl

theorem toSingles?_ofSingles (xs : List Single) : toSingles? (ofSingles xs) = some xs := by
  induction xs with
  | nil => rfl
  | cons x xs ih => rw [ofSingles_cons, le32, List.cons_append, List.cons_append, List.cons_append,
      List.cons_append, List.nil_append, toSingles?, ih, word_le32, Option.map_some]

theorem length_ofSingles (xs : List Single) : (ofSingles xs).length = 4 * xs.length := by
  induction xs with
  | nil => rfl
  | cons x xs ih =>
    rw [ofSingles_cons, List.length_append, length_le32, ih, List.length_cons]
    omega

end Bytes

end NeuralDispatch
