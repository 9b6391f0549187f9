import NeuralDispatch.Cache.Error

/-!
# Reading and writing cache records

Records are made of bytes, little-endian words and lists of words, which are preceded by their
length.  A reader takes what it needs from the front of a byte string and leaves the rest.

* `word_le32_append` — a written word reads back, whatever follows it.
* `words_writeWords_append` — so does a list of words, if its length fits into one.
-/

namespace NeuralDispatch.Cache

/-- Takes a value off the front of a byte string. -/
abbrev Reader := StateT Bytes (Except CacheError)

namespace Reader

/-- The next `n` bytes. -/
def take (n : Nat) : Reader Bytes := fun bytes =>
  if bytes.length < n then .error .truncated else .ok (bytes.take n, bytes.drop n)

/-- The next byte. -/
def byte : Reader UInt8
  | [] => .error .truncated
  | b :: rest => .ok (b, rest)

/-- The next word. -/
def word : Reader UInt32
  | a :: b :: c :: d :: rest => .ok (Bytes.word a b c d, rest)
  | _ => .error .truncated

/-- The next word as a number. -/
def number : Reader Nat := do return (← word).toNat

/-- What `n` readings one after the other give. -/
def times {α : Type} (reader : Reader α) : Nat → Reader (List α)
  | 0 => return []
  | n + 1 => do
    let a ← reader
    return a :: (← times reader n)

/-- A list of words, preceded by its length. -/
def words : Reader (List UInt32) := do times word (← number)

/-- A list of positions, preceded by its length. -/
def positions : Reader (List Nat) := do return (← words).map UInt32.toNat

end Reader

/-- A list of words as `Reader.words` reads it. -/
def writeWords (ws : List UInt32) : Bytes :=
  Bytes.le32 (UInt32.ofNat ws.length) ++ ws.flatMap Bytes.le32

/-- A list of positions as `Reader.positions` reads it. -/
def writePositions (ps : List Nat) : Bytes := writeWords (ps.map UInt32.ofNat)

/-! ## Reading what is written -/

namespace Reader

theorem take_append (xs rest : Bytes) : take xs.length (xs ++ rest) = .ok (xs, rest) := by
  simp [take]

theorem word_le32_append (w : UInt32) (rest : Bytes) :
    word (Bytes.le32 w ++ rest) = .ok (w, rest) := by
  simp only [Bytes.le32, List.cons_append, List.nil_append, word, Bytes.word_le32]

/-- A reader that undoes a writer undoes it for a row of values. -/
theorem times_flatMap_append {α : Type} {reader : Reader α} {write : α → Bytes} {xs : List α}
    (h : ∀ x ∈ xs, ∀ rest, reader (write x ++ rest) = .ok (x, rest)) (rest : Bytes) :
    times reader xs.length (xs.flatMap write ++ rest) = .ok (xs, rest) := by
  induction xs with
  | nil => rfl
  | cons x xs ih =>
    have ih := ih fun y hy => h y (List.mem_cons_of_mem x hy)
    have hx := h x List.mem_cons_self (xs.flatMap write ++ rest)
    rw [List.flatMap_cons, List.append_assoc, List.length_cons]
    simp only [times, bind, StateT.bind, hx, Except.bind, ih]
    rfl

theorem number_le32_append {n : Nat} (h : n < UInt32.size) (rest : Bytes) :
    number (Bytes.le32 (UInt32.ofNat n) ++ rest) = .ok (n, rest) := by
  have hn : (UInt32.ofNat n).toNat = n := UInt32.toNat_ofNat_of_lt' h
  simp only [number, bind, StateT.bind, word_le32_append, Except.bind, hn]
  rfl

theorem words_writeWords_append {ws : List UInt32} (h : ws.length < UInt32.size) (rest : Bytes) :
    words (writeWords ws ++ rest) = .ok (ws, rest) := by
  simp only [words, bind, StateT.bind, writeWords, List.append_assoc, number_le32_append h,
    Except.bind]
  exact times_flatMap_append (fun w _ rest => word_le32_append w rest) rest

end Reader

end NeuralDispatch.Cache
