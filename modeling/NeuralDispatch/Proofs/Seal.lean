import NeuralDispatch.Cache.Codec
import NeuralDispatch.Proofs.Buffers
import NeuralDispatch.Proofs.Wire

/-!
# Which files are sealed

A model cache is accepted just when it is the sealed form of a payload, byte for byte.  Everything
else is refused by one of four faults of the frame, before the payload or the data cache is looked
at.

* `Reader.take_eq_ok`, `Reader.number_eq_ok` — what a successful reading has taken off the front.
* `Frame.Seals` — the sealed form of a payload; `Frame.verify_eq_ok_iff` says that it is what is
  accepted.
* `Frame.Seals.eq_of_prefix` — no sealed file begins with another one, so that neither cutting a
  file short nor adding to it gives a sealed file.
* `Frame.decode_sealed_only` — a file that is not sealed is refused, whatever the data cache holds.
-/

namespace NeuralDispatch.Cache

open Answer

/-! ## What a reading takes, and how it fails -/

namespace Reader

variable {bytes rest : Bytes}

theorem take_eq_ok {n : Nat} {taken : Bytes} :
    take n bytes = .ok (taken, rest) ↔ taken.length = n ∧ bytes = taken ++ rest := by
  unfold take
  constructor
  · intro h
    split at h
    · cases h
    · next hlength =>
      cases h
      simp
      omega
  · rintro ⟨rfl, rfl⟩
    simp

theorem word_eq_ok {w : UInt32} :
    word bytes = .ok (w, rest) ↔ bytes = Bytes.le32 w ++ rest := by
  constructor
  · intro h
    unfold word at h
    split at h
    · cases h
      rw [Bytes.le32_word]
      rfl
    · cases h
  · rintro rfl
    exact word_le32_append w rest

theorem number_eq_ok {n : Nat} :
    number bytes = .ok (n, rest) ↔
      n < UInt32.size ∧ bytes = Bytes.le32 (UInt32.ofNat n) ++ rest := by
  constructor
  · intro h
    refine ⟨lt_of_number h, ?_⟩
    obtain ⟨w, bytes', hw, hn⟩ := bind_eq_ok.1 h
    cases hn
    rw [UInt32.ofNat_toNat]
    exact word_eq_ok.1 hw
  · rintro ⟨hn, rfl⟩
    exact number_le32_append hn rest

theorem bind_eq_error {α β : Type} {reader : Reader α} {next : α → Reader β} {e : CacheError} :
    (reader >>= next) bytes = .error e ↔
      reader bytes = .error e ∨
        ∃ a bytes', reader bytes = .ok (a, bytes') ∧ next a bytes' = .error e := by
  show (reader bytes >>= fun p => next p.1 p.2) = _ ↔ _
  cases reader bytes with
  | error e' => simp [error_bind]
  | ok p => simp [ok_bind, Prod.ext_iff]

/-- Bytes can only be missing. -/
theorem eq_truncated_of_take {n : Nat} {e : CacheError} (h : take n bytes = .error e) :
    e = .truncated := by
  unfold take at h
  split at h
  · cases h
    rfl
  · cases h

theorem eq_truncated_of_number {e : CacheError} (h : number bytes = .error e) :
    e = .truncated := by
  rcases bind_eq_error.1 h with h | ⟨w, bytes', -, h⟩
  · unfold word at h
    split at h
    · cases h
    · cases h
      rfl
  · cases h

end Reader

namespace Frame

/-! ## The sealed form of a payload -/

/-- Whether a file is the sealed form of a payload: header, token, length, payload and tag, and
nothing behind them. -/
structure Seals (bytes payload : Bytes) (token : Token) (key : Key) : Prop where
  short : payload.length < UInt32.size
  layout : bytes = header ++ token.toList ++ Bytes.le32 (UInt32.ofNat payload.length) ++ payload ++
    (tag key payload token).toList

section Layout

variable {bytes payload : Bytes} {token : Token} {key : Key}

theorem Seals.length_eq (h : Seals bytes payload token key) :
    bytes.length = 76 + payload.length := by
  have hheader : header.length = 8 := rfl
  rw [h.layout]
  simp only [List.length_append, hheader, Vector.length_toList, Bytes.length_le32]
  omega

theorem Seals.token_eq (h : Seals bytes payload token key) :
    (bytes.drop 8).take 32 = token.toList := by
  rw [h.layout]
  simp [header]

theorem Seals.stated_length (h : Seals bytes payload token key) :
    (bytes.drop 40).take 4 = Bytes.le32 (UInt32.ofNat payload.length) := by
  have hstart : (header ++ token.toList).length = 40 := by
    rw [List.length_append, Vector.length_toList]
    rfl
  have hsplit : bytes = (header ++ token.toList) ++
      (Bytes.le32 (UInt32.ofNat payload.length) ++ (payload ++ (tag key payload token).toList)) := by
    rw [h.layout]
    simp only [List.append_assoc]
  rw [hsplit, List.drop_left' hstart, List.take_left' (Bytes.length_le32 _)]

theorem Seals.drop_eq (h : Seals bytes payload token key) :
    bytes.drop (44 + payload.length) = (tag key payload token).toList := by
  have hheader : header.length = 8 := rfl
  rw [h.layout]
  apply List.drop_left'
  simp only [List.length_append, hheader, Vector.length_toList, Bytes.length_le32]

/-- The parts into which a file is taken apart make it up. -/
theorem layout_of_read {stored rest : Bytes}
    (h : read token bytes = .ok ((payload, stored), rest)) :
    payload.length < UInt32.size ∧
      bytes = header ++ token.toList ++ Bytes.le32 (UInt32.ofNat payload.length) ++ payload ++
        (stored ++ rest) := by
  unfold read at h
  obtain ⟨first, bytes₁, hfirst, h⟩ := Reader.bind_eq_ok.1 h
  dsimp only at h
  split at h
  · cases h
  · next hheader =>
    obtain ⟨second, bytes₂, hsecond, h⟩ := Reader.bind_eq_ok.1 h
    split at h
    · cases h
    · next htoken =>
      obtain ⟨n, bytes₃, hn, h⟩ := Reader.bind_eq_ok.1 h
      obtain ⟨taken, bytes₄, htaken, h⟩ := Reader.bind_eq_ok.1 h
      obtain ⟨last, bytes₅, hlast, h⟩ := Reader.bind_eq_ok.1 h
      cases h
      obtain ⟨-, rfl⟩ := Reader.take_eq_ok.1 hfirst
      obtain ⟨-, rfl⟩ := Reader.take_eq_ok.1 hsecond
      obtain ⟨short, rfl⟩ := Reader.number_eq_ok.1 hn
      obtain ⟨rfl, rfl⟩ := Reader.take_eq_ok.1 htaken
      obtain ⟨-, rfl⟩ := Reader.take_eq_ok.1 hlast
      rw [not_not.1 hheader, not_not.1 htoken]
      exact ⟨short, by simp only [List.append_assoc]⟩

/-- What a file is accepted for is the payload of which it is the sealed form. -/
theorem verify_eq_ok_iff :
    verify bytes token key = .ok payload ↔ Seals bytes payload token key := by
  constructor
  · intro h
    unfold verify at h
    obtain ⟨⟨⟨taken, stored⟩, rest⟩, hread, h⟩ := bind_eq_ok.1 h
    obtain ⟨short, layout⟩ := layout_of_read hread
    dsimp only at h
    split at h
    · cases h
    · next hrest =>
      split at h
      · cases h
      · next hstored =>
        obtain rfl := pure_eq_ok.1 h
        have hnil : rest = [] := by simpa using hrest
        refine ⟨short, ?_⟩
        rw [layout, hnil, not_not.1 hstored, List.append_nil]
  · intro h
    rw [h.layout]
    exact (verify_write payload token key).2 ⟨h.short, rfl⟩

/-- Two sealed files that begin alike are the same, since the stated lengths agree. -/
theorem Seals.eq_of_prefix {other payload' : Bytes} {token' : Token} {key' : Key}
    (h : Seals bytes payload token key) (h' : Seals other payload' token' key')
    (hstart : bytes <+: other) : bytes = other := by
  have hlength := h.length_eq
  have hlength' := h'.length_eq
  obtain ⟨more, rfl⟩ := hstart
  have hstated : Bytes.le32 (UInt32.ofNat payload.length) =
      Bytes.le32 (UInt32.ofNat payload'.length) := by
    rw [← h.stated_length, ← h'.stated_length, List.drop_append_of_le_length (by omega),
      List.take_append_of_le_length (by rw [List.length_drop]; omega)]
  have hsame : payload.length = payload'.length := by
    have hread := (reads_number h.short) []
    rw [hstated, (reads_number h'.short) []] at hread
    simpa using hread.symm
  rw [List.length_append] at hlength'
  have hnil : more = [] := List.eq_nil_of_length_eq_zero (by omega)
  rw [hnil, List.append_nil]

/-- A sealed file names one token only. -/
theorem Seals.eq_token {payload' : Bytes} {token' : Token} {key' : Key}
    (h : Seals bytes payload token key) (h' : Seals bytes payload' token' key') :
    token = token' := by
  have hlist : token.toList = token'.toList := by rw [← h.token_eq, ← h'.token_eq]
  exact Vector.toList_inj.1 hlist

/-- What is sealed in place of a file of the same length carries the tag of another payload. -/
theorem Seals.carries_tag {other payload' : Bytes} (h : Seals bytes payload token key)
    (hlength : other.length = bytes.length) (hne : other ≠ bytes)
    (h' : Seals other payload' token key) :
    payload' ≠ payload ∧
      other.drop (44 + payload.length) = (tag key payload' token).toList := by
  constructor
  · rintro rfl
    exact hne (h'.layout.trans h.layout.symm)
  · have hsame : payload.length = payload'.length := by
      have := h.length_eq
      have := h'.length_eq
      omega
    rw [hsame]
    exact h'.drop_eq

end Layout

/-! ## Files that are refused -/

/-- What can be wrong with the frame of a file. -/
def faults : List CacheError := [.truncated, .unknownHeader, .tokenMismatch, .integrityCheckFailed]

/-- Whether a file is refused for its frame, whatever the data cache holds. -/
def Refused (bytes : Bytes) (token : Token) (key : Key) : Prop :=
  ∃ e ∈ faults, ∀ data, decode bytes data token key = .error e

section Refusal

variable {bytes : Bytes} {token : Token} {key : Key} {e : CacheError}

theorem mem_faults_of_take {n : Nat} (h : Reader.take n bytes = .error e) : e ∈ faults := by
  rw [Reader.eq_truncated_of_take h]
  decide

theorem mem_faults_of_read (h : read token bytes = .error e) : e ∈ faults := by
  unfold read at h
  rcases Reader.bind_eq_error.1 h with h | ⟨first, bytes₁, -, h⟩
  · exact mem_faults_of_take h
  dsimp only at h
  split at h
  · cases h
    decide
  · rcases Reader.bind_eq_error.1 h with h | ⟨second, bytes₂, -, h⟩
    · exact mem_faults_of_take h
    split at h
    · cases h
      decide
    · rcases Reader.bind_eq_error.1 h with h | ⟨n, bytes₃, -, h⟩
      · rw [Reader.eq_truncated_of_number h]
        decide
      rcases Reader.bind_eq_error.1 h with h | ⟨taken, bytes₄, -, h⟩
      · exact mem_faults_of_take h
      rcases Reader.bind_eq_error.1 h with h | ⟨last, bytes₅, -, h⟩
      · exact mem_faults_of_take h
      · cases h

theorem mem_faults_of_verify (h : verify bytes token key = .error e) : e ∈ faults := by
  unfold verify at h
  cases hread : read token bytes with
  | error e' =>
    rw [hread, error_bind] at h
    cases h
    exact mem_faults_of_read hread
  | ok parts =>
    rw [hread, ok_bind] at h
    dsimp only at h
    split at h
    · cases h
      decide
    · split at h
      · cases h
        decide
      · cases h

/-- A file that is not sealed is refused. -/
theorem refused_of_not_seals (h : ∀ payload, ¬ Seals bytes payload token key) :
    Refused bytes token key := by
  cases hverify : verify bytes token key with
  | ok payload => exact absurd (verify_eq_ok_iff.1 hverify) (h payload)
  | error e =>
    refine ⟨e, mem_faults_of_verify hverify, ?_⟩
    intro data
    rw [decode, hverify]
    rfl

end Refusal

/-- A file is accepted for a payload just when it is, byte for byte, header, token, length of the
payload, payload and tag.  Any other file is refused for its frame before the payload is parsed,
whatever the data cache holds.  So a sealed file is refused when it is cut short or added to, under
any other token, and after any change that does not bring along the tag of another payload. -/
theorem decode_sealed_only (bytes : Bytes) (token : Token) (key : Key) :
    (∀ payload, verify bytes token key = .ok payload ↔ payload.length < UInt32.size ∧
      bytes = header ++ token.toList ++ Bytes.le32 (UInt32.ofNat payload.length) ++ payload ++
        (tag key payload token).toList) ∧
    ((∃ payload, Seals bytes payload token key) ∨ Refused bytes token key) ∧
    ∀ payload, Seals bytes payload token key →
      (∀ other, other <+: bytes ∨ bytes <+: other → other ≠ bytes →
        ∀ token' key', Refused other token' key') ∧
      (∀ token' key', token' ≠ token → Refused bytes token' key') ∧
      ∀ other, other.length = bytes.length → other ≠ bytes →
        (∀ payload' ≠ payload,
          other.drop (44 + payload.length) ≠ (tag key payload' token).toList) →
        Refused other token key := by
  refine ⟨?_, ?_, ?_⟩
  · intro payload
    exact verify_eq_ok_iff.trans ⟨fun h => ⟨h.short, h.layout⟩, fun h => ⟨h.1, h.2⟩⟩
  · by_cases h : ∃ payload, Seals bytes payload token key
    · exact Or.inl h
    · exact Or.inr (refused_of_not_seals (not_exists.1 h))
  · intro payload h
    refine ⟨?_, ?_, ?_⟩
    · intro other hstart hne token' key'
      apply refused_of_not_seals
      intro payload' h'
      rcases hstart with hstart | hstart
      · exact hne (h'.eq_of_prefix h hstart)
      · exact hne (h.eq_of_prefix h' hstart).symm
    · intro token' key' hne
      apply refused_of_not_seals
      intro payload' h'
      exact hne (h'.eq_token h)
    · intro other hlength hne htag
      apply refused_of_not_seals
      intro payload' h'
      obtain ⟨hfresh, hcarried⟩ := h.carries_tag hlength hne h'
      exact htag payload' hfresh hcarried

end Frame

end NeuralDispatch.Cache
