import NeuralDispatch.Command.Chain
import NeuralDispatch.Proofs.Runs

/-!
# The chain as a model

The chain is built one operation after the other, and is a well-formed model of any length.  Its
words are those that are computed number by number, and none of them is ever not a number, since
each number comes back to where it was after a few turns.

* `Chain.Complete` — what a chain of a given length looks like.
* `Chain.extend_ok`, `Chain.model_ok` — building one succeeds.
* `Chain.Complete.valid` — a chain with an operation is well formed.
* `Chain.isNaN_expected` — what must come out of a chain are numbers.
* `Chain.Complete.interpretation` — a direct interpretation of a chain finds them.
-/

namespace NeuralDispatch.Chain

open Answer Model Interpreter

/-! ## Building -/

/-- The operand in which a chain of so many operations ends. -/
def place (count : Nat) : Nat := if count = 0 then 0 else count + 1

@[simp] theorem place_succ (count : Nat) : place (count + 1) = count + 2 := if_neg (by omega)

/-- The operation at a position of a chain. -/
def operation (i : Nat) : Operation where
  type := if i % 2 = 0 then .add else .floor
  inputs := if i % 2 = 0 then [place i, 1] else [place i]
  outputs := [place (i + 1)]

/-- The bytes of the addend. -/
def addendBytes : Bytes := Bytes.ofSingles (List.replicate 4 addend)

/-- An operand of a chain before its ends are named. -/
def operand (o : Nat) : Operand :=
  if o = 1 then { tensor with lifetime := .constantCopy, value := some addendBytes } else tensor

/-- A chain of so many operations, the ends of which are not named. -/
structure Partial (count : Nat) (m : Model) : Prop where
  built : Built m
  operations : m.operations = (List.range count).map operation
  length_eq : m.operands.length = count + 2
  operands : ∀ o < count + 2, ∃ consumers, m.operands[o]? = some { operand o with consumers }
  relaxed : m.relaxed = false

/-- Without an operation there are the input and the addend. -/
theorem partial_zero :
    ∃ m, ((Model.addOperand {} tensor).addOperand tensor).setValue 1 addendBytes = .ok m ∧
      Partial 0 m := by
  refine ⟨_, rfl, ⟨[.addOperand tensor, .addOperand tensor, .setValue 1 addendBytes], rfl⟩, rfl,
    rfl, ?_, rfl⟩
  intro o ho
  rcases o with _ | _ | o
  · exact ⟨0, rfl⟩
  · exact ⟨0, rfl⟩
  · omega

/-- One more operation. -/
theorem Partial.succ {i : Nat} {m : Model} (h : Partial i m) :
    ∃ m', (m.addOperand tensor).addOperation (operation i).type (operation i).inputs
        (operation i).outputs = .ok m' ∧ Partial (i + 1) m' := by
  have hlength : (m.addOperand tensor).operands.length = i + 3 := by
    simp [Model.addOperand, h.length_eq]
  have hplace : place i < i + 2 := by
    rw [place]
    split <;> omega
  have hexist : ∀ o ∈ (operation i).inputs ++ (operation i).outputs,
      o < (m.addOperand tensor).operands.length := by
    rw [hlength, operation]
    intro o ho
    dsimp only at ho
    split at ho <;> simp at ho <;> omega
  obtain ⟨m', hadd⟩ : ∃ m', (m.addOperand tensor).addOperation (operation i).type
      (operation i).inputs (operation i).outputs = .ok m' :=
    ⟨_, addOperation_eq_ok.2 ⟨hexist, List.cons_ne_nil _ _, rfl⟩⟩
  obtain ⟨-, -, hm'⟩ := addOperation_eq_ok.1 hadd
  refine ⟨m', hadd, ?_, ?_, ?_, fun o ho => ?_, by rw [hm']; exact h.relaxed⟩
  · have hbuilt := (h.built.perform (.addOperand tensor)).perform
      (.addOperation (operation i).type (operation i).inputs (operation i).outputs)
    rwa [perform, perform, hadd] at hbuilt
  · rw [hm', List.range_succ, List.map_append, List.map_singleton, ← h.operations]
    rfl
  · rw [hm', countReads, List.length_mapIdx, hlength]
  · -- an operand that was there gets readers, and nothing else
    rw [hm', countReads, List.getElem?_mapIdx, Model.addOperand, List.getElem?_append]
    split
    · next hlt =>
      obtain ⟨consumers, hold⟩ := h.operands o (h.length_eq ▸ hlt)
      exact ⟨_, by rw [hold]; rfl⟩
    · next hge =>
      obtain rfl : o = i + 2 := by
        rw [h.length_eq] at hge
        omega
      rw [h.length_eq, Nat.sub_self, operand, if_neg (by omega)]
      exact ⟨_, rfl⟩

/-- A chain is extended by any number of operations. -/
theorem extend_ok {i : Nat} {m : Model} (h : Partial i m) (count : Nat) :
    ∃ m', extend count i (place i) m = .ok (m', place (i + count)) ∧ Partial (i + count) m' := by
  induction count generalizing i m with
  | zero => exact ⟨m, rfl, h⟩
  | succ count ih =>
    obtain ⟨next, hnext, hpartial⟩ := h.succ
    obtain ⟨m', hm', hdone⟩ := ih hpartial
    rw [Nat.add_right_comm, Nat.add_assoc] at hm' hdone
    refine ⟨m', ?_, hdone⟩
    rw [extend, h.length_eq, ← place_succ i]
    rw [operation] at hnext
    dsimp only at hnext
    split at hnext
    · next heven =>
      simp only [if_pos heven, hnext]
      exact hm'
    · next hodd =>
      simp only [if_neg hodd, hnext]
      exact hm'

/-- Where the value of an operand of a chain comes from. -/
def lifetime (length o : Nat) : Lifetime :=
  if o = length + 1 then .modelOutput
  else if o = 0 then .modelInput
  else if o = 1 then .constantCopy
  else .temporary

/-- A chain of a given length. -/
structure Complete (length : Nat) (m : Model) : Prop where
  built : Built m
  operations : m.operations = (List.range length).map operation
  length_eq : m.operands.length = length + 2
  operands : ∀ o < length + 2, ∃ consumers,
    m.operands[o]? = some { operand o with lifetime := lifetime length o, consumers }
  inputs : m.inputs = [0]
  outputs : m.outputs = [length + 1]
  relaxed : m.relaxed = false

/-- A chain of any length is built. -/
theorem model_ok {length : Nat} (hlength : length ≠ 0) :
    ∃ m, model length = .ok m ∧ Complete length m := by
  obtain ⟨m₀, hm₀, hzero⟩ := partial_zero
  obtain ⟨m, hm, h⟩ := extend_ok hzero length
  rw [Nat.zero_add] at hm h
  have hlast : place length = length + 1 := if_neg hlength
  have hidentify : m.identify [0] [length + 1] = (m.identified [0] [length + 1], .ok ()) := by
    refine identify_eq_ok.2 ⟨?_, ?_, rfl⟩ <;> simp [h.length_eq]
  refine ⟨m.identified [0] [length + 1], ?_, ?_, h.operations, ?_, fun o ho => ?_, rfl, rfl,
    h.relaxed⟩
  · rw [model, show Bytes.ofSingles (List.replicate 4 addend) = addendBytes from rfl, hm₀]
    show (extend length 0 (place 0) m₀ >>= _) = _
    rw [hm, ok_bind]
    dsimp only
    rw [hlast, hidentify]
    rfl
  · have hbuilt := h.built.perform (.identify [0] [length + 1])
    rwa [perform, hidentify] at hbuilt
  · simp [identified, relabel, h.length_eq]
  · obtain ⟨consumers, ho⟩ := h.operands o ho
    refine ⟨consumers, ?_⟩
    simp only [identified, relabel, List.getElem?_mapIdx, ho, Option.map_some, List.mem_singleton,
      lifetime, operand]
    split_ifs <;> rfl

/-! ## Well-formedness -/

theorem needsProducer_lifetime {length o : Nat} (hlength : length ≠ 0) :
    (lifetime length o).needsProducer = true ↔ 2 ≤ o := by
  unfold lifetime
  split_ifs <;> simp [Lifetime.needsProducer] <;> omega

theorem isConstant_lifetime {length o : Nat} (hlength : length ≠ 0) :
    (lifetime length o).isConstant = true ↔ o = 1 := by
  unfold lifetime
  split_ifs <;> simp [Lifetime.isConstant] <;> omega

namespace Complete

variable {length : Nat} {m : Model}

theorem getElem?_operations (h : Complete length m) {i : Nat} {op : Operation} :
    m.operations[i]? = some op ↔ i < length ∧ op = operation i := by
  rw [h.operations, List.getElem?_map, Option.map_eq_some_iff]
  simp only [List.getElem?_eq_some_iff, List.length_range, List.getElem_range]
  constructor
  · rintro ⟨_, ⟨hi, rfl⟩, rfl⟩
    exact ⟨hi, rfl⟩
  · rintro ⟨hi, rfl⟩
    exact ⟨i, ⟨hi, rfl⟩, rfl⟩

theorem length_operations (h : Complete length m) : m.operations.length = length := by
  rw [h.operations, List.length_map, List.length_range]

/-- An operand is known but for the number of its readers. -/
theorem getElem?_operands (h : Complete length m) {o : Nat} {x : Operand}
    (hx : m.operands[o]? = some x) :
    o < length + 2 ∧
      x = { operand o with lifetime := lifetime length o, consumers := x.consumers } := by
  have ho := h.length_eq ▸ (List.getElem?_eq_some_iff.1 hx).1
  obtain ⟨consumers, heq⟩ := h.operands o ho
  obtain rfl := Option.some.inj (hx.symm.trans heq)
  exact ⟨ho, rfl⟩

/-- All operands take four words. -/
theorem byteLength_eq (h : Complete length m) {o : Nat} {x : Operand}
    (hx : m.operands[o]? = some x) : x.byteLength = some 16 := by
  obtain ⟨-, heq⟩ := h.getElem?_operands hx
  rw [heq, operand]
  split <;> rfl

theorem written_eq (h : Complete length m) : m.written = (List.range length).map (· + 2) := by
  rw [written, h.operations, List.flatMap_map, List.map_eq_flatMap]
  simp [operation]

theorem mem_written_iff (h : Complete length m) {o : Nat} :
    o ∈ m.written ↔ 2 ≤ o ∧ o < length + 2 := by
  rw [h.written_eq, List.mem_map]
  simp only [List.mem_range]
  constructor
  · rintro ⟨i, hi, rfl⟩
    omega
  · rintro ⟨hle, hlt⟩
    exact ⟨o - 2, by omega, by omega⟩

/-- An operation reads what the one before it writes, and the addend. -/
theorem eq_of_mem_inputs {i o : Nat} (ho : o ∈ (operation i).inputs) : o = place i ∨ o = 1 := by
  rw [operation] at ho
  dsimp only at ho
  split at ho
  · simpa using ho
  · exact .inl (List.mem_singleton.1 ho)

theorem single (h : Complete length m) : m.written.Nodup := by
  rw [h.written_eq]
  exact List.nodup_range.map fun i j hij => by simpa using hij

/-- Each operation depends on the one before it. -/
theorem mem_edges_iff (h : Complete length m) {w r : Nat} :
    (w, r) ∈ m.edges ↔ r = w + 1 ∧ r < length := by
  simp only [mem_edges, producer?_eq_some_iff h.single, h.getElem?_operations]
  constructor
  · rintro ⟨_, o, ⟨hr, rfl⟩, ho, _, ⟨-, rfl⟩, hw⟩
    obtain rfl : o = w + 2 := (List.mem_singleton.1 hw).trans (place_succ w)
    have hread := eq_of_mem_inputs ho
    rw [place] at hread
    split at hread <;> omega
  · rintro ⟨rfl, hr⟩
    refine ⟨_, w + 2, ⟨hr, rfl⟩, ?_, _, ⟨by omega, rfl⟩, ?_⟩
    · rw [operation, ← place_succ]
      dsimp only
      split <;> exact List.mem_cons_self
    · exact List.mem_singleton.2 (place_succ w).symm

/-- A chain with an operation is well formed. -/
theorem valid (h : Complete length m) (hlength : length ≠ 0) : Valid m where
  operations_ne := by simp [h.operations, hlength]
  outputs_ne := by simp [h.outputs]
  exist := h.built.sound.exist
  writable o ho := by
    obtain ⟨hle, hlt⟩ := h.mem_written_iff.1 ho
    obtain ⟨consumers, hoperand⟩ := h.operands o hlt
    exact ⟨_, hoperand, (needsProducer_lifetime hlength).2 hle⟩
  single := h.single
  produced o x hx hneeds _ := by
    obtain ⟨hlt, heq⟩ := h.getElem?_operands hx
    rw [heq] at hneeds
    exact h.mem_written_iff.2 ⟨(needsProducer_lifetime hlength).1 hneeds, hlt⟩
  valued o x hx hconstant := by
    obtain ⟨-, heq⟩ := h.getElem?_operands hx
    rw [heq] at hconstant ⊢
    obtain rfl := (isConstant_lifetime hlength).1 hconstant
    exact Option.some_ne_none _
  outputs_written := by
    simp only [h.outputs, List.mem_singleton, forall_eq, h.mem_written_iff]
    omega
  acyclic := topologicalOrder_of_rank id fun ⟨w, r⟩ he => by
    obtain ⟨rfl, -⟩ := h.mem_edges_iff.1 he
    exact Nat.lt_succ_self w

/-- The operations are on tensors throughout. -/
theorem signature (h : Complete length m) {i : Nat} (hi : i < length) :
    m.signature i = .ok ⟨(operation i).type, .tensorFloat32⟩ := by
  have hop := h.getElem?_operations.2 ⟨hi, rfl⟩
  have hfirst : ∃ rest, (operation i).inputs ++ (operation i).outputs = place i :: rest := by
    rw [operation]
    dsimp only
    split <;> exact ⟨_, rfl⟩
  obtain ⟨rest, hfirst⟩ := hfirst
  obtain ⟨consumers, hoperand⟩ := h.operands (place i) (by rw [place]; split <;> omega)
  rw [signature_of_first hop hfirst hoperand, operand]
  split <;> rfl

/-- Every revision can express a chain. -/
theorem minRevision_le (h : Complete length m) (r : Revision) : m.minRevision ≤ r := by
  have holdest : Revision.v1_0 ≤ r := by cases r <;> decide
  refine of_decide_eq_true (isCompliantWith_iff.2 ⟨?_, fun op hop => ?_, fun x hx => ?_⟩)
  · rw [h.relaxed]
    exact holdest
  · obtain ⟨i, hi⟩ := List.mem_iff_getElem?.1 hop
    obtain ⟨-, rfl⟩ := h.getElem?_operations.1 hi
    rw [operation]
    dsimp only
    split <;> exact holdest
  · obtain ⟨o, ho⟩ := List.mem_iff_getElem?.1 hx
    obtain ⟨-, heq⟩ := h.getElem?_operands ho
    rw [heq, operand]
    split <;> exact holdest

/-- The lifetimes tell what the operands of a chain are. -/
theorem tidy (h : Complete length m) (hlength : length ≠ 0) : m.Tidy where
  inputs o x hx := by
    obtain ⟨-, heq⟩ := h.getElem?_operands hx
    rw [heq, h.inputs, List.mem_singleton]
    dsimp only [lifetime]
    split_ifs <;> simp <;> omega
  outputs o x hx := by
    obtain ⟨-, heq⟩ := h.getElem?_operands hx
    rw [heq, h.outputs, List.mem_singleton]
    dsimp only [lifetime]
    split_ifs <;> simp [*]
  values o x hx hvalue := by
    obtain ⟨-, heq⟩ := h.getElem?_operands hx
    rw [heq] at hvalue ⊢
    refine (isConstant_lifetime hlength).2 ?_
    by_contra hother
    exact hvalue (by rw [operand, if_neg hother]; rfl)

end Complete

/-! ## Numbers -/

theorem expected_succ (n : Nat) : expected (n + 1) = (expected n).map (advance · n) := by
  simp [expected, List.range_succ, List.foldl_append, Function.comp_def]

theorem length_expected (n : Nat) : (expected n).length = 4 := by simp [expected, start]

/-- The numbers that a chain can have come to after so many operations: those after rounding down
or at the start, and those after an addition. -/
def reachable (count : Nat) : List Single :=
  if count % 2 = 0 then
    start ++ [⟨0xbf800000⟩, ⟨0x00000000⟩, ⟨0x3f800000⟩, ⟨0x40400000⟩]
  else
    [⟨0xbf800000⟩, ⟨0x3e800000⟩, ⟨0x3f800000⟩, ⟨0x40500000⟩] ++
      [⟨0xbf000000⟩, ⟨0x3f000000⟩, ⟨0x3fc00000⟩, ⟨0x40600000⟩]

/-- An operation does not lead out of these numbers. -/
theorem advance_mem_reachable {count : Nat} {x : Single} (hx : x ∈ reachable count) :
    advance x count ∈ reachable (count + 1) := by
  -- there are few numbers on either side, so both kinds of turn can be tried out
  have hadd : ∀ x ∈ reachable 0, x.add addend ∈ reachable 1 := by decide
  have hfloor : ∀ x ∈ reachable 1, x.floor ∈ reachable 0 := by decide
  rcases Nat.mod_two_eq_zero_or_one count with heven | hodd
  · rw [reachable, if_pos heven] at hx
    rw [advance, if_pos heven, reachable, if_neg (by omega)]
    exact hadd x hx
  · rw [reachable, if_neg (by omega)] at hx
    rw [advance, if_neg (by omega), reachable, if_pos (by omega)]
    exact hfloor x hx

theorem mem_reachable_of_expected (n : Nat) : ∀ x ∈ expected n, x ∈ reachable n := by
  induction n with
  | zero => decide
  | succ n ih =>
    rw [expected_succ]
    exact List.forall_mem_map.2 fun x hx => advance_mem_reachable (ih x hx)

/-- What must come out of a chain are numbers. -/
theorem isNaN_expected (n : Nat) : ∀ x ∈ expected n, x.isNaN = false := by
  have heven : ∀ x ∈ reachable 0, x.isNaN = false := by decide
  have hodd : ∀ x ∈ reachable 1, x.isNaN = false := by decide
  intro x hx
  have hreach := mem_reachable_of_expected n x hx
  rw [reachable] at hreach
  split at hreach
  · exact heven x hreach
  · exact hodd x hreach

/-! ## Interpretation -/

/-- The words of the operands of a chain. -/
def words (length o : Nat) : Option (List Single) :=
  if o = 1 then some (List.replicate 4 addend)
  else if o < length + 2 then some (expected (o - 1))
  else none

theorem words_place {length i : Nat} (hi : i ≤ length) :
    words length (place i) = some (expected i) := by
  unfold place
  split
  · next hzero =>
    subst hzero
    rfl
  · next hne =>
    rw [words, if_neg (by omega), if_pos (by omega), Nat.add_sub_cancel]

/-- An operation computes from the words of its inputs those of its output. -/
theorem compute_operation {length i : Nat} (hi : i < length) :
    ∃ args, (operation i).inputs.mapM (words length) = some args ∧
      (operation i).type.compute args = some (expected (i + 1)) := by
  have hread := words_place hi.le
  have haddends : List.replicate 4 addend = (expected i).map fun _ => addend := by
    rw [List.map_const', length_expected]
  rw [operation, expected_succ]
  dsimp only
  by_cases heven : i % 2 = 0
  · refine ⟨[expected i, (expected i).map fun _ => addend], ?_, ?_⟩
    · rw [if_pos heven, List.mapM_cons, hread, ← haddends]
      rfl
    · have hadvance : (advance · i) = fun x => x.add addend := funext fun x => if_pos heven
      simp only [if_pos heven, hadvance, OperationType.compute, OperationType.apply, List.map_cons,
        List.map_nil, Tensor.zipWith?, List.length_map, if_true, List.zipWith_map_right,
        List.zipWith_self, Option.map_some]
  · refine ⟨[expected i], ?_, ?_⟩
    · rw [if_neg heven, List.mapM_cons, hread]
      rfl
    · have hadvance : (advance · i) = Single.floor := funext fun x => if_neg heven
      rw [if_neg heven, hadvance]
      rfl

namespace Complete

variable {length : Nat} {m : Model}

theorem consistent (h : Complete length m) : Consistent m (words length) where
  computes op hop := by
    obtain ⟨i, hi⟩ := List.mem_iff_getElem?.1 hop
    obtain ⟨hlt, rfl⟩ := h.getElem?_operations.1 hi
    obtain ⟨args, hargs, hcompute⟩ := compute_operation hlt
    exact ⟨args, place (i + 1), expected (i + 1), hargs, hcompute, rfl, words_place hlt⟩
  headed op hop o ho _ := by
    obtain ⟨i, hi⟩ := List.mem_iff_getElem?.1 hop
    obtain ⟨-, rfl⟩ := h.getElem?_operations.1 hi
    rw [List.mem_singleton.1 ho]
    rfl

/-- What is given of a chain are the addend and the input. -/
theorem mem_given_iff (h : Complete length m) {bytes : Bytes} {e : Nat × Bytes} :
    e ∈ given m [bytes] ↔ e = (1, addendBytes) ∨ e = (0, Request.visible bytes) := by
  obtain ⟨o, value⟩ := e
  rw [given, List.mem_reverse, List.mem_append, mem_constants, h.inputs]
  refine or_congr ⟨?_, ?_⟩ (by simp)
  · rintro ⟨x, hx, hvalue⟩
    obtain ⟨-, heq⟩ := h.getElem?_operands hx
    rw [heq, operand] at hvalue
    split at hvalue
    · next hone => rw [hone, ← Option.some.inj hvalue]
    · cases hvalue
  · rintro heq
    obtain ⟨rfl, rfl⟩ := Prod.mk.inj heq
    obtain ⟨consumers, hx⟩ := h.operands 1 (by omega)
    exact ⟨_, hx, rfl⟩

/-- A direct interpretation of a chain finds what must come out. -/
theorem interpretation (h : Complete length m) (hlength : length ≠ 0) :
    ∃ v, Interpretation m [Bytes.ofSingles start] v ∧
      v.contents (length + 1) = some (expected length) := by
  have hvalid := h.valid hlength
  have htidy := h.tidy hlength
  have hholds : ∀ e ∈ given m [Bytes.ofSingles start],
      Contents.Holds (words length) e.1 e.2 := by
    intro e he
    rcases h.mem_given_iff.1 he with rfl | rfl
    · exact ⟨_, if_pos rfl, rfl⟩
    · exact ⟨_, words_place (Nat.zero_le length), Request.visible_of_lt (by decide)⟩
  have hread : ∀ op ∈ m.operations, ∀ o ∈ op.inputs, o ∉ m.written →
      ∃ bytes, (o, bytes) ∈ given m [Bytes.ofSingles start] := by
    intro op hop o ho hunwritten
    have hlt := h.length_eq ▸ h.built.sound.exist op hop o (List.mem_append_left _ ho)
    have hgiven : o = 1 ∨ o = 0 := by
      rw [h.mem_written_iff] at hunwritten
      omega
    rcases hgiven with rfl | rfl
    · exact ⟨_, h.mem_given_iff.2 (.inl rfl)⟩
    · exact ⟨_, h.mem_given_iff.2 (.inr rfl)⟩
  obtain ⟨v, hvalues, hfound⟩ := values_of_consistent hvalid h.consistent [] (by simp [h.inputs])
    (by simp [h.inputs, h.length_eq]) hholds hread
  have hcome : ∀ i < length, v.contents (place (i + 1)) = some (expected (i + 1)) := by
    intro i hi
    rw [hfound, words_place hi]
    · rw [place_succ, h.mem_written_iff]
      omega
    · rw [words_place hi]
      exact Option.some_ne_none _
  refine ⟨v, ⟨hvalid, h.built.sound, htidy,
    explains_of_values hvalid (htidy.not_written hvalid) hvalues, fun op hop => ?_⟩, ?_⟩
  · obtain ⟨i, hi⟩ := List.mem_iff_getElem?.1 hop
    obtain ⟨hlt, rfl⟩ := h.getElem?_operations.1 hi
    obtain ⟨t, ht, hdata⟩ := Option.map_eq_some_iff.1 (hcome i hlt)
    obtain ⟨consumers, hoperand⟩ := h.operands (place (i + 1)) (by rw [place_succ]; omega)
    refine ⟨_, _, t, rfl, hoperand, ht, ?_⟩
    rw [Bytes.length_ofSingles, hdata, length_expected, operand, if_neg (by rw [place_succ]; omega)]
    rfl
  · obtain ⟨i, rfl⟩ := Nat.exists_eq_succ_of_ne_zero hlength
    have hlast := hcome i (Nat.lt_succ_self i)
    rwa [place_succ] at hlast

end Complete

end NeuralDispatch.Chain
