import Mathlib.Data.List.Induction
import NeuralDispatch.Proofs.Answers
import NeuralDispatch.Request

/-!
# Regions of memory

A region is read as a whole or not at all, and written from its start as far as the bytes go.  A
read asks whether the region lies inside its pool, and a write asks this of the part that the bytes
take.  So a region that sticks out of its pool may be written, and is never read.

* `Request.byte?` — the memory of a request, byte by byte.
* `Request.Contains`, `Request.Admits` — what is asked of a region that is read or written.
* `Request.byte?_offer` — a write changes the bytes that it takes, and nothing else.
* `Request.byte?_offerAll` — of several writes the last one to take a byte counts.
* `Request.write_read_agree` — a region reads as what has been written, and behind it as before, if
  it lies inside its pool.
-/

namespace NeuralDispatch

/-- Whether two regions have no byte in common. -/
def Argument.Disjoint (a b : Argument) : Prop :=
  a.pool ≠ b.pool ∨ a.offset + a.length ≤ b.offset ∨ b.offset + b.length ≤ a.offset

theorem Argument.Disjoint.symm {a b : Argument} (h : a.Disjoint b) : b.Disjoint a :=
  h.imp Ne.symm Or.symm

/-- Bytes that are meant for a region. -/
structure Write where
  region : Argument
  bytes : Bytes
  deriving DecidableEq, Repr

namespace Write

/-- What is written at a place of a pool, if the bytes take it. -/
def byte? (w : Write) (p k : Nat) : Option UInt8 :=
  if p = w.region.pool ∧ w.region.offset ≤ k then w.bytes[k - w.region.offset]? else none

theorem byte?_eq_none {w : Write} {p k : Nat} (h : p ≠ w.region.pool ∨ k < w.region.offset ∨
    w.region.offset + w.bytes.length ≤ k) : w.byte? p k = none := by
  rw [byte?]
  split
  · next hplace => exact List.getElem?_eq_none (by omega)
  · rfl

/-- What the last of some writes to take a place puts there. -/
def overlay (ws : List Write) (p k : Nat) : Option UInt8 := ws.reverse.findSome? (·.byte? p k)

@[simp] theorem overlay_nil (p k : Nat) : overlay [] p k = none := rfl

theorem overlay_concat (ws : List Write) (w : Write) (p k : Nat) :
    overlay (ws ++ [w]) p k = (w.byte? p k).or (overlay ws p k) := by
  rw [overlay, List.reverse_append, List.reverse_singleton, List.singleton_append,
    List.findSome?_cons]
  cases w.byte? p k <;> rfl

end Write

namespace Request

variable {r r' : Request} {a : Argument} {w : Write}

/-! ## Memory -/

/-- The byte at a place of a pool. -/
def byte? (r : Request) (p k : Nat) : Option UInt8 := r.pools[p]?.bind (·[k]?)

/-- How long the pools are. -/
def sizes (r : Request) : List Nat := r.pools.map (·.length)

/-- Requests with the same arguments and the same bytes in pools of the same lengths are equal. -/
theorem ext_bytes (hinputs : r'.inputs = r.inputs) (houtputs : r'.outputs = r.outputs)
    (hsizes : r'.sizes = r.sizes) (hbytes : ∀ p k, r'.byte? p k = r.byte? p k) : r' = r := by
  obtain ⟨inputs', outputs', pools'⟩ := r'
  obtain ⟨inputs, outputs, pools⟩ := r
  obtain rfl : inputs' = inputs := hinputs
  obtain rfl : outputs' = outputs := houtputs
  have hlength : pools'.length = pools.length := by
    simpa [sizes] using congrArg List.length hsizes
  refine congrArg (Request.mk _ _) (List.ext_getElem hlength fun p hp hp' => ?_)
  refine List.ext_getElem? fun k => ?_
  simpa [byte?, hp, hp'] using hbytes p k

/-- Whether so many bytes from the start of a region on lie inside its pool. -/
def Contains (r : Request) (a : Argument) (length : Nat) : Prop :=
  (r.sizes[a.pool]?.any fun size => decide (a.offset + length ≤ size)) = true

instance (r : Request) (a : Argument) (length : Nat) : Decidable (r.Contains a length) :=
  inferInstanceAs (Decidable (_ = true))

theorem contains_iff {length : Nat} : r.Contains a length ↔
    ∃ pool, r.pools[a.pool]? = some pool ∧ a.offset + length ≤ pool.length := by
  rw [Contains, sizes, List.getElem?_map]
  cases r.pools[a.pool]? <;> simp

theorem contains_congr (hsizes : r'.sizes = r.sizes) {length : Nat} :
    r'.Contains a length ↔ r.Contains a length := by
  rw [Contains, Contains, hsizes]

theorem Contains.mono {length length' : Nat} (h : r.Contains a length) (hle : length' ≤ length) :
    r.Contains a length' := by
  obtain ⟨pool, hpool, hinside⟩ := contains_iff.1 h
  exact contains_iff.2 ⟨pool, hpool, Nat.le_trans (Nat.add_le_add_left hle _) hinside⟩

/-- Whether bytes fit into their region, and take a part of it that lies inside the pool. -/
def Admits (r : Request) (w : Write) : Prop :=
  w.bytes.length ≤ w.region.length ∧ r.Contains w.region w.bytes.length

instance (r : Request) (w : Write) : Decidable (r.Admits w) :=
  inferInstanceAs (Decidable (_ ∧ _))

theorem admits_congr (hsizes : r'.sizes = r.sizes) : r'.Admits w ↔ r.Admits w :=
  and_congr_right fun _ => contains_congr hsizes

/-! ## Reading -/

theorem read_eq_some {bytes : Bytes} : r.read a = some bytes ↔
    ∃ pool, r.pools[a.pool]? = some pool ∧ a.offset + a.length ≤ pool.length ∧
      bytes = (pool.drop a.offset).take a.length := by
  rw [read]
  cases r.pools[a.pool]? with
  | none => simp
  | some pool =>
    simp only [Option.bind_eq_bind, Option.bind_some, Option.some.injEq, exists_eq_left']
    split
    · next h => simp [h, eq_comm]
    · next h => simp [h]

/-- A region is read if it lies inside its pool. -/
theorem isSome_read : (r.read a).isSome = true ↔ r.Contains a a.length := by
  rw [Option.isSome_iff_exists, contains_iff]
  simp only [read_eq_some]
  exact ⟨fun ⟨_, pool, hpool, hle, _⟩ => ⟨pool, hpool, hle⟩,
    fun ⟨pool, hpool, hle⟩ => ⟨_, pool, hpool, hle, rfl⟩⟩

/-- A region that is read gives the bytes that lie in it. -/
theorem read_eq_some_iff {bytes : Bytes} : r.read a = some bytes ↔
    r.Contains a a.length ∧ bytes.length = a.length ∧
      ∀ k < a.length, bytes[k]? = r.byte? a.pool (a.offset + k) := by
  rw [read_eq_some, contains_iff]
  constructor
  · rintro ⟨pool, hpool, hle, rfl⟩
    refine ⟨⟨pool, hpool, hle⟩, ?_, fun k hk => ?_⟩
    · rw [List.length_take, List.length_drop]
      omega
    · rw [List.getElem?_take_of_lt hk, List.getElem?_drop, byte?, hpool, Option.bind_some]
  · rintro ⟨⟨pool, hpool, hle⟩, hlength, hbytes⟩
    refine ⟨pool, hpool, hle, List.ext_getElem? fun k => ?_⟩
    by_cases hk : k < a.length
    · rw [hbytes k hk, List.getElem?_take_of_lt hk, List.getElem?_drop, byte?, hpool,
        Option.bind_some]
    · rw [List.getElem?_eq_none (by omega), List.getElem?_eq_none]
      exact Nat.le_trans (List.length_take_le _ _) (Nat.le_of_not_lt hk)

/-! ## One write -/

/-- The request after bytes have been offered to a region, whether it takes them or not. -/
def offer (r : Request) (w : Write) : Request := (r.write? w.region w.bytes).getD r

/-- The request with the bytes in their place. -/
def put (r : Request) (w : Write) : Request :=
  { r with pools := r.pools.modify w.region.pool (overwrite · w.region.offset w.bytes) }

theorem write?_eq (r : Request) (w : Write) :
    r.write? w.region w.bytes = if r.Admits w then some (r.put w) else none := by
  rw [write?]
  -- the pool is looked up between the two comparisons, so that the cases follow this order
  by_cases hfits : w.bytes.length ≤ w.region.length
  · rw [if_neg (Nat.not_lt.2 hfits)]
    cases hpool : r.pools[w.region.pool]? with
    | none =>
      rw [if_neg]
      · rfl
      · rintro ⟨-, hinside⟩
        obtain ⟨pool, hsome, -⟩ := contains_iff.1 hinside
        cases hpool.symm.trans hsome
    | some pool =>
      have hinside : r.Contains w.region w.bytes.length ↔
          w.region.offset + w.bytes.length ≤ pool.length := by
        rw [contains_iff]
        simp [hpool]
      have hput : r.pools.modify w.region.pool (overwrite · w.region.offset w.bytes) =
          r.pools.set w.region.pool (overwrite pool w.region.offset w.bytes) := by
        rw [List.modify_eq_set_getElem?, hpool]
        rfl
      simp only [Admits, hinside, hfits, true_and, put, hput]
      rfl
  · rw [if_pos (Nat.lt_of_not_le hfits), if_neg fun h => hfits h.1]

theorem isSome_write? : (r.write? w.region w.bytes).isSome = true ↔ r.Admits w := by
  rw [write?_eq]
  split <;> simp [*]

theorem offer_of_admits (h : r.Admits w) : r.offer w = r.put w := by
  rw [offer, write?_eq, if_pos h, Option.getD_some]

theorem offer_of_not_admits (h : ¬ r.Admits w) : r.offer w = r := by
  rw [offer, write?_eq, if_neg h, Option.getD_none]

theorem inputs_offer : (r.offer w).inputs = r.inputs := by
  by_cases h : r.Admits w
  · rw [offer_of_admits h, put]
  · rw [offer_of_not_admits h]

theorem outputs_offer : (r.offer w).outputs = r.outputs := by
  by_cases h : r.Admits w
  · rw [offer_of_admits h, put]
  · rw [offer_of_not_admits h]

theorem getElem?_overwrite {pool : Bytes} {offset : Nat} {bytes : Bytes}
    (inside : offset + bytes.length ≤ pool.length) (k : Nat) :
    (overwrite pool offset bytes)[k]? =
      (if offset ≤ k then bytes[k - offset]? else none).or pool[k]? := by
  rw [overwrite, List.append_assoc, List.getElem?_append, List.length_take,
    Nat.min_eq_left (by omega)]
  split
  · next hlt => rw [List.getElem?_take_of_lt hlt, if_neg (by omega), Option.none_or]
  · next hge =>
    rw [if_pos (by omega), List.getElem?_append]
    split
    · next hlt => rw [List.getElem?_eq_getElem hlt, Option.some_or]
    · next hout =>
      rw [List.getElem?_eq_none (Nat.le_of_not_lt hout), Option.none_or, List.getElem?_drop]
      congr 1
      omega

/-- A write changes the bytes that it takes, and nothing else. -/
theorem byte?_put (h : r.Admits w) (p k : Nat) :
    (r.put w).byte? p k = (w.byte? p k).or (r.byte? p k) := by
  obtain ⟨pool, hpool, hle⟩ := contains_iff.1 h.2
  rw [byte?, put, List.getElem?_modify, Write.byte?, byte?]
  by_cases hp : p = w.region.pool
  · subst hp
    simp [hpool, getElem?_overwrite hle]
  · simp [hp, Ne.symm hp]

theorem sizes_put (h : r.Admits w) : (r.put w).sizes = r.sizes := by
  obtain ⟨pool, hpool, hle⟩ := contains_iff.1 h.2
  refine List.ext_getElem? fun p => ?_
  simp only [sizes, put, List.getElem?_map, List.getElem?_modify]
  by_cases hp : w.region.pool = p
  · subst hp
    simp [hpool, length_overwrite hle]
  · simp [hp]

theorem sizes_offer : (r.offer w).sizes = r.sizes := by
  by_cases h : r.Admits w
  · rw [offer_of_admits h, sizes_put h]
  · rw [offer_of_not_admits h]

theorem byte?_offer (h : r.Admits w) (p k : Nat) :
    (r.offer w).byte? p k = (w.byte? p k).or (r.byte? p k) := by
  rw [offer_of_admits h, byte?_put h]

/-- A region that has been written reads as what has been written and, behind it, as before. -/
theorem read_offer (h : r.Admits w) :
    (r.offer w).read w.region =
      (r.read w.region).map fun old => w.bytes ++ old.drop w.bytes.length := by
  cases hread : r.read w.region with
  | none =>
    have hout : ¬ r.Contains w.region w.region.length := fun hinside => by
      simp [← isSome_read, hread] at hinside
    rw [← contains_congr (sizes_offer (w := w)), ← isSome_read] at hout
    simpa using hout
  | some old =>
    obtain ⟨hinside, hlength, hold⟩ := read_eq_some_iff.1 hread
    rw [Option.map_some, read_eq_some_iff, contains_congr sizes_offer]
    have hfits := h.1
    refine ⟨hinside, ?_, fun k hk => ?_⟩
    · rw [List.length_append, List.length_drop]
      omega
    · rw [byte?_offer h, Write.byte?, if_pos ⟨rfl, Nat.le_add_right _ _⟩, Nat.add_sub_cancel_left,
        ← hold k hk, List.getElem?_append]
      split
      · next hlt => rw [List.getElem?_eq_getElem hlt, Option.some_or]
      · next hge =>
        rw [List.getElem?_eq_none (Nat.le_of_not_lt hge), Option.none_or, List.getElem?_drop]
        congr 1
        omega

/-! ## Several writes -/

/-- The request after writes have been offered one after the other. -/
def offerAll (r : Request) (ws : List Write) : Request := ws.foldl offer r

@[simp] theorem offerAll_nil : r.offerAll [] = r := rfl

@[simp] theorem offerAll_cons (w : Write) (ws : List Write) :
    r.offerAll (w :: ws) = (r.offer w).offerAll ws := rfl

theorem offerAll_concat (ws : List Write) (w : Write) :
    r.offerAll (ws ++ [w]) = (r.offerAll ws).offer w := by
  simp [offerAll, List.foldl_append]

/-- Writes leave the arguments and the lengths of the pools alone. -/
theorem offerAll_keeps (r : Request) (ws : List Write) :
    (r.offerAll ws).inputs = r.inputs ∧ (r.offerAll ws).outputs = r.outputs ∧
      (r.offerAll ws).sizes = r.sizes := by
  induction ws generalizing r with
  | nil => exact ⟨rfl, rfl, rfl⟩
  | cons w ws ih =>
    obtain ⟨hinputs, houtputs, hsizes⟩ := ih (r.offer w)
    exact ⟨hinputs.trans inputs_offer, houtputs.trans outputs_offer, hsizes.trans sizes_offer⟩

/-- Of several writes the last one that is admitted and takes a byte counts. -/
theorem byte?_offerAll (r : Request) (ws : List Write) (p k : Nat) :
    (r.offerAll ws).byte? p k =
      (Write.overlay (ws.filter fun w => decide (r.Admits w)) p k).or (r.byte? p k) := by
  induction ws using List.reverseRecOn with
  | nil => rfl
  | append_singleton ws w ih =>
    have hsame : (r.offerAll ws).Admits w ↔ r.Admits w := admits_congr (r.offerAll_keeps ws).2.2
    rw [offerAll_concat, List.filter_append]
    by_cases h : r.Admits w
    · rw [byte?_offer (hsame.2 h), ih, List.filter_singleton, decide_eq_true h,
        cond_true, Write.overlay_concat, Option.or_assoc]
    · rw [offer_of_not_admits (mt hsame.1 h), ih, List.filter_singleton, decide_eq_false h,
        cond_false, List.append_nil]

/-- Writes change nothing just if all that stays of them was there before. -/
theorem offerAll_eq_self_iff {ws : List Write} : r.offerAll ws = r ↔
    ∀ p k b, Write.overlay (ws.filter fun w => decide (r.Admits w)) p k = some b →
      r.byte? p k = some b := by
  constructor
  · intro h p k b hb
    rw [← h, byte?_offerAll, hb, Option.some_or]
  · intro h
    obtain ⟨hinputs, houtputs, hsizes⟩ := r.offerAll_keeps ws
    refine ext_bytes hinputs houtputs hsizes fun p k => ?_
    rw [byte?_offerAll]
    cases hb : Write.overlay (ws.filter fun w => decide (r.Admits w)) p k with
    | none => rw [Option.none_or]
    | some b => rw [Option.some_or, h p k b hb]

/-! ## Disjoint regions -/

/-- A write leaves a region alone that is disjoint from its own. -/
theorem read_offer_of_disjoint (h : w.region.Disjoint a) : (r.offer w).read a = r.read a := by
  by_cases hadmits : r.Admits w
  · refine Option.ext fun bytes => ?_
    rw [read_eq_some_iff, read_eq_some_iff, contains_congr sizes_offer]
    refine and_congr_right fun _ => and_congr_right fun _ => forall₂_congr fun k hk => ?_
    have hfits := hadmits.1
    have houtside : w.byte? a.pool (a.offset + k) = none := by
      refine Write.byte?_eq_none ?_
      rcases h with hpool | hbefore | hafter
      · exact .inl (Ne.symm hpool)
      · exact .inr (.inr (by omega))
      · exact .inr (.inl (by omega))
    rw [byte?_offer hadmits, houtside, Option.none_or]
  · rw [offer_of_not_admits hadmits]

theorem read_offerAll_of_disjoint {ws : List Write} (h : ∀ w ∈ ws, w.region.Disjoint a) :
    (r.offerAll ws).read a = r.read a := by
  induction ws generalizing r with
  | nil => rfl
  | cons w ws ih =>
    obtain ⟨hw, hws⟩ := List.forall_mem_cons.1 h
    rw [offerAll_cons, ih hws, read_offer_of_disjoint hw]

/-- Of writes into disjoint regions each is read as if it were the only one. -/
theorem read_offerAll {ws : List Write} (hdisjoint : (ws.map (·.region)).Pairwise Argument.Disjoint)
    {w : Write} (hw : w ∈ ws) : (r.offerAll ws).read w.region = (r.offer w).read w.region := by
  obtain ⟨before, after, rfl⟩ := List.append_of_mem hw
  rw [List.map_append, List.map_cons, List.pairwise_append, List.pairwise_cons] at hdisjoint
  obtain ⟨-, ⟨hafter, -⟩, hbefore⟩ := hdisjoint
  have hlater : ∀ x ∈ after, x.region.Disjoint w.region := fun x hx =>
    (hafter _ (List.mem_map_of_mem hx)).symm
  have hearlier : ∀ x ∈ before, x.region.Disjoint w.region := fun x hx =>
    hbefore _ (List.mem_map_of_mem hx) _ List.mem_cons_self
  have hsame : (r.offerAll before).Admits w ↔ r.Admits w :=
    admits_congr (r.offerAll_keeps before).2.2
  rw [offerAll, List.foldl_append, List.foldl_cons, ← offerAll, ← offerAll,
    read_offerAll_of_disjoint hlater]
  by_cases hadmits : r.Admits w
  · rw [read_offer (hsame.2 hadmits), read_offer hadmits, read_offerAll_of_disjoint hearlier]
  · rw [offer_of_not_admits (mt hsame.1 hadmits), offer_of_not_admits hadmits,
      read_offerAll_of_disjoint hearlier]

/-! ## Writes and reads -/

/-- A write is done if the bytes fit into the region and the part that they take lies inside the
pool.  Then the region reads as what has been written with the old bytes behind it, if it is read at
all, which it is just if it lies inside the pool as a whole; and all other bytes are as they were.
A write that is not done changes nothing. -/
theorem write_read_agree (r : Request) (w : Write) :
    ((r.write? w.region w.bytes).isSome = true ↔
      w.bytes.length ≤ w.region.length ∧ r.Contains w.region w.bytes.length) ∧
    (r.write? w.region w.bytes = none → r.offer w = r) ∧
    ∀ r', r.write? w.region w.bytes = some r' →
      r.offer w = r' ∧ r'.inputs = r.inputs ∧ r'.outputs = r.outputs ∧ r'.sizes = r.sizes ∧
      (∀ p k, r'.byte? p k = (w.byte? p k).or (r.byte? p k)) ∧
      r'.read w.region = (r.read w.region).map (fun old => w.bytes ++ old.drop w.bytes.length) ∧
      ((r'.read w.region).isSome = true ↔ r.Contains w.region w.region.length) := by
  refine ⟨isSome_write?, fun hnone => by rw [offer, hnone, Option.getD_none], fun r' h => ?_⟩
  have hadmits : r.Admits w := isSome_write?.1 (by rw [h, Option.isSome_some])
  obtain rfl : r.offer w = r' := by rw [offer, h, Option.getD_some]
  exact ⟨rfl, inputs_offer, outputs_offer, sizes_offer, byte?_offer hadmits, read_offer hadmits,
    isSome_read.trans (contains_congr sizes_offer)⟩

/-- Two bytes go to the end of a pool, into a region that reaches beyond it and so is never read. -/
theorem overhanging_unread :
    let r : Request := { pools := [[0, 0, 0, 0]] }
    let a : Argument := { offset := 2, length := 8 }
    ¬ r.Contains a a.length ∧ r.write? a [1, 2] = some { pools := [[0, 0, 1, 2]] } ∧
      Request.read { pools := [[0, 0, 1, 2]] } a = none := by decide

end Request

end NeuralDispatch
