import NeuralDispatch.Cache.Codec
import NeuralDispatch.Proofs.Answers

/-!
# Reading back what is written

A reader that undoes a writer takes what was written off the front of a byte string and leaves the
rest.  Such readers are put together as the writers are.

* `Reads` — whether a reader takes some bytes for a value, whatever follows them.
* `Reads.bind`, `Reads.times` — readings one after the other.
* `reads_words`, `reads_positions` — lists whose length fits into a word.
* `Reader.bind_eq_ok` — what it says that a reading in two steps succeeds.
* `verify_write` — a sealed payload is read back just when its length fits into a word.
-/

namespace NeuralDispatch.Cache

open Answer

/-- Whether a reader takes some bytes for a value, whatever follows them. -/
def Reads {α : Type} (reader : Reader α) (bytes : Bytes) (a : α) : Prop :=
  ∀ rest, reader (bytes ++ rest) = .ok (a, rest)

/-! ## Readings one after the other -/

section Combinators

variable {α β : Type} {reader : Reader α} {bytes bytes' : Bytes} {a : α} {b : β}

theorem Reads.pure (a : α) : Reads (pure a) [] a := fun _ => rfl

/-- What comes after a value is read as it would be read alone. -/
theorem Reads.bind_append (h : Reads reader bytes a) (next : α → Reader β) (rest : Bytes) :
    (reader >>= next) (bytes ++ rest) = next a rest := by
  show (reader (bytes ++ rest) >>= fun p => next p.1 p.2) = _
  rw [h rest, ok_bind]

theorem Reads.bind {next : α → Reader β} (h : Reads reader bytes a)
    (h' : Reads (next a) bytes' b) : Reads (reader >>= next) (bytes ++ bytes') b := by
  intro rest
  rw [List.append_assoc, h.bind_append]
  exact h' rest

/-- What is computed from a value takes no bytes. -/
theorem Reads.map {f : α → β} (h : Reads reader bytes a) :
    Reads (do return f (← reader)) bytes (f a) := by
  have hall : Reads (do return f (← reader)) (bytes ++ []) (f a) := h.bind (Reads.pure (f a))
  rwa [List.append_nil] at hall

theorem Reads.eq_of_append_nil (h : Reads reader bytes a) : reader bytes = .ok (a, []) := by
  have hall := h []
  rwa [List.append_nil] at hall

/-- A row of values. -/
theorem Reads.times {write : α → Bytes} {xs : List α}
    (h : ∀ x ∈ xs, Reads reader (write x) x) :
    Reads (Reader.times reader xs.length) (xs.flatMap write) xs :=
  Reader.times_flatMap_append h

end Combinators

theorem reads_take (bytes : Bytes) : Reads (Reader.take bytes.length) bytes bytes :=
  Reader.take_append bytes

theorem take_of_le {n : Nat} {bytes : Bytes} (h : n ≤ bytes.length) :
    Reader.take n bytes = .ok (bytes.take n, bytes.drop n) := if_neg (Nat.not_lt.2 h)

theorem reads_byte (b : UInt8) : Reads Reader.byte [b] b := fun _ => rfl

theorem reads_word (w : UInt32) : Reads Reader.word (Bytes.le32 w) w := Reader.word_le32_append w

theorem reads_number {n : Nat} (h : n < UInt32.size) :
    Reads Reader.number (Bytes.le32 (UInt32.ofNat n)) n := Reader.number_le32_append h

theorem reads_words {ws : List UInt32} (h : ws.length < UInt32.size) :
    Reads Reader.words (writeWords ws) ws := Reader.words_writeWords_append h

theorem reads_positions {ps : List Nat} (h : ps.length < UInt32.size)
    (hall : ∀ p ∈ ps, p < UInt32.size) : Reads Reader.positions (writePositions ps) ps := by
  have hwords : Reads Reader.words (writePositions ps) (ps.map UInt32.ofNat) :=
    reads_words (by simpa using h)
  have hback : (ps.map UInt32.ofNat).map UInt32.toNat = ps := by
    have hsame : ∀ p ∈ ps, (UInt32.toNat ∘ UInt32.ofNat) p = id p := fun p hp =>
      UInt32.toNat_ofNat_of_lt' (hall p hp)
    rw [List.map_map, List.map_congr_left hsame, List.map_id]
  have hread := hwords.map (f := List.map UInt32.toNat)
  rwa [hback] at hread

/-! ## What a successful reading says -/

namespace Reader

theorem bind_eq_ok {α β : Type} {reader : Reader α} {next : α → Reader β} {bytes rest : Bytes}
    {b : β} :
    (reader >>= next) bytes = .ok (b, rest) ↔
      ∃ a bytes', reader bytes = .ok (a, bytes') ∧ next a bytes' = .ok (b, rest) := by
  show (reader bytes >>= fun p => next p.1 p.2) = _ ↔ _
  rw [Answer.bind_eq_ok, Prod.exists]

theorem lift_eq_ok {α : Type} {answer : Except CacheError α} {bytes rest : Bytes} {a : α} :
    (liftM answer : Reader α) bytes = .ok (a, rest) ↔ answer = .ok a ∧ bytes = rest := by
  show (answer >>= fun a => pure (a, bytes)) = _ ↔ _
  rw [Answer.bind_eq_ok]
  simp

theorem length_of_take {n : Nat} {bytes taken rest : Bytes}
    (h : take n bytes = .ok (taken, rest)) : taken.length = n := by
  unfold take at h
  split at h
  · cases h
  · next hlength =>
    obtain ⟨rfl, -⟩ := Prod.mk.inj (Except.ok.inj h)
    exact List.length_take_of_le (Nat.not_lt.1 hlength)

theorem lt_of_number {n : Nat} {bytes rest : Bytes} (h : number bytes = .ok (n, rest)) :
    n < UInt32.size := by
  obtain ⟨w, bytes', -, hn⟩ := bind_eq_ok.1 h
  obtain ⟨rfl, -⟩ := Prod.mk.inj (Except.ok.inj hn)
  exact w.toNat_lt

end Reader

/-! ## Sealed payloads -/

namespace Frame

variable (payload : Bytes) (token : Token) (key : Key)

/-- The parts of a sealed file, the payload being cut off at the length that is stored. -/
theorem read_write :
    read token (write payload token key) =
      .ok ((payload.take (UInt32.ofNat payload.length).toNat,
        (payload.drop (UInt32.ofNat payload.length).toNat ++
          (tag key payload token).toList).take 32),
        (payload.drop (UInt32.ofNat payload.length).toNat ++
          (tag key payload token).toList).drop 32) := by
  have hheader : ∀ rest, Reader.take 8 (header ++ rest) = .ok (header, rest) := reads_take header
  have htoken : ∀ rest, Reader.take 32 (token.toList ++ rest) = .ok (token.toList, rest) := by
    have hread := reads_take token.toList
    rwa [Vector.length_toList] at hread
  have hnumber : ∀ rest, Reader.number (Bytes.le32 (UInt32.ofNat payload.length) ++ rest) =
      .ok ((UInt32.ofNat payload.length).toNat, rest) := (reads_word _).map
  have hle : (UInt32.ofNat payload.length).toNat ≤ payload.length := by
    rw [UInt32.toNat_ofNat']
    exact Nat.mod_le _ _
  simp only [write, List.append_assoc, read, bind, StateT.bind, hheader, htoken, hnumber,
    Except.bind, ne_eq, not_true_eq_false, if_false]
  have hlong : 32 ≤ (payload.drop (UInt32.ofNat payload.length).toNat ++
      (tag key payload token).toList).length := by simp
  have hwhole : (UInt32.ofNat payload.length).toNat ≤
      (payload ++ (tag key payload token).toList).length :=
    Nat.le_trans hle (by rw [List.length_append]; exact Nat.le_add_right _ _)
  rw [take_of_le hwhole, List.take_append_of_le_length hle,
    List.drop_append_of_le_length hle]
  dsimp only
  rw [take_of_le hlong]
  rfl

/-- A sealed payload is read back just when its length fits into a word. -/
theorem verify_write {answer : Bytes} :
    verify (write payload token key) token key = .ok answer ↔
      payload.length < UInt32.size ∧ answer = payload := by
  have hstored : payload.length < UInt32.size ↔
      payload.length ≤ (UInt32.ofNat payload.length).toNat := by
    rw [UInt32.toNat_ofNat']
    constructor
    · exact fun h => Nat.le_of_eq (Nat.mod_eq_of_lt h).symm
    · exact fun h => Nat.lt_of_le_of_lt h (Nat.mod_lt payload.length (by decide : 0 < 2 ^ 32))
  have hlength := (tag key payload token).length_toList
  rw [verify, read_write, ok_bind]
  dsimp only
  by_cases h : payload.length < UInt32.size
  · have hwhole := hstored.1 h
    rw [List.drop_of_length_le hwhole, List.take_of_length_le hwhole, List.nil_append,
      List.drop_of_length_le (Nat.le_of_eq hlength), List.take_of_length_le (Nat.le_of_eq hlength)]
    simp [h, pure, Except.pure, eq_comm]
  · have hcut : (List.drop 32 (payload.drop (UInt32.ofNat payload.length).toNat ++
        (tag key payload token).toList)).isEmpty = false := by
      have hshort := Nat.not_le.1 (mt hstored.2 h)
      rw [List.isEmpty_eq_false_iff, ← List.length_pos_iff, List.length_drop, List.length_append,
        hlength, List.length_drop]
      omega
    rw [hcut]
    simp only [h, false_and, iff_false]
    exact fun herror => by cases herror

end Frame

end NeuralDispatch.Cache
