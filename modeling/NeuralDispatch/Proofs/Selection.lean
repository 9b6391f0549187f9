import NeuralDispatch.Proofs.Devices
import NeuralDispatch.Proofs.Relocation

/-!
# Which device gets an operation

Every device that runs an operation bids its figure for it, in the order of the devices.  A bid is
taken over by a later one that is strictly smaller.  As nothing is smaller than a figure that is not
a number, and such a figure is smaller than nothing, the first bid decides over all: if it is a
number, the smallest number wins; if it is not, it stands.

* `Bids`, `Wins` — the figures of the devices that run an operation, and the best of them.
* `foldl_better_of_number`, `foldl_better_of_isNaN` — what becomes of the first bid.
* `bids_of_assign` — the device that an operation is assigned to, among those that bid for it.
* `partition_selects` — every operation lies on a device that runs it, and which one that is.
-/

namespace NeuralDispatch

open Answer Model

/-! ## Bids -/

namespace Assignment

/-- Whether the bid at a position counts for more than another: its figure is smaller, or the same
number comes from an earlier device. -/
def Beats (a b : Nat × Single) : Prop :=
  a.2.lt b.2 = true ∨ a.2.sameNumber b.2 = true ∧ a.1 < b.1

theorem beats_iff {a b : Nat × Single} :
    Beats a b ↔ a.2.isNaN = false ∧ b.2.isNaN = false ∧
      (a.2.rank < b.2.rank ∨ a.2.rank = b.2.rank ∧ a.1 < b.1) := by
  simp only [Beats, Single.lt, Single.sameNumber, Bool.and_eq_true, Bool.not_eq_true',
    decide_eq_true_eq]
  tauto

theorem Beats.trans {a b c : Nat × Single} (hab : Beats a b) (hbc : Beats b c) : Beats a c := by
  obtain ⟨ha, -, hab⟩ := beats_iff.1 hab
  obtain ⟨-, hc, hbc⟩ := beats_iff.1 hbc
  exact beats_iff.2 ⟨ha, hc, by omega⟩

/-- A number that comes first is only beaten by a smaller one. -/
theorem beats_of_not_lt {a b : Nat × Single} (ha : a.2.isNaN = false) (hb : b.2.isNaN = false)
    (hfirst : a.1 < b.1) (h : b.2.lt a.2 = false) : Beats a b := by
  have hrank : a.2.rank ≤ b.2.rank := by simpa [Single.lt, ha, hb] using h
  exact beats_iff.2 ⟨ha, hb, by omega⟩

/-- A first bid that is not a number stands. -/
theorem foldl_better_of_isNaN {b : Nat × Single} (hb : b.2.isNaN = true)
    (bids : List (Nat × Single)) : bids.foldl better (some b) = some b := by
  induction bids with
  | nil => rfl
  | cons c rest ih =>
    have hkept : better (some b) c = some b := by
      simp [better, Single.lt, hb]
    rw [List.foldl_cons, hkept, ih]

/-- A first bid that is a number gives way to one that beats every other number. -/
theorem foldl_better_of_number {b c : Nat × Single} (hb : b.2.isNaN = false)
    {bids : List (Nat × Single)} (hsorted : (b :: bids).Pairwise fun x y => x.1 < y.1)
    (h : bids.foldl better (some b) = some c) :
    c ∈ b :: bids ∧ ∀ x ∈ b :: bids, x ≠ c → x.2.isNaN = false → Beats c x := by
  induction bids generalizing b with
  | nil =>
    obtain rfl := Option.some.inj h
    exact ⟨List.mem_singleton_self b, fun x hx hne => absurd (List.mem_singleton.1 hx) hne⟩
  | cons y rest ih =>
    obtain ⟨hbefore, hrest⟩ := List.pairwise_cons.1 hsorted
    obtain ⟨hby, hbrest⟩ := List.forall_mem_cons.1 hbefore
    rw [List.foldl_cons, better] at h
    by_cases hlt : y.2.lt b.2 = true
    · -- from here on, the bid to beat is a smaller number
      rw [if_pos hlt] at h
      have hyb : Beats y b := Or.inl hlt
      obtain ⟨hmem, hbest⟩ := ih (beats_iff.1 hyb).1 hrest h
      refine ⟨List.mem_cons_of_mem b hmem, List.forall_mem_cons.2 ⟨fun _ _ => ?_, hbest⟩⟩
      by_cases hcy : y = c
      · exact hcy ▸ hyb
      · exact (hbest y List.mem_cons_self hcy (beats_iff.1 hyb).1).trans hyb
    · rw [if_neg hlt] at h
      have hkept : (b :: rest).Pairwise fun x y => x.1 < y.1 :=
        List.pairwise_cons.2 ⟨hbrest, (List.pairwise_cons.1 hrest).2⟩
      obtain ⟨hmem, hbest⟩ := ih hb hkept h
      have hall := List.forall_mem_cons.1 hbest
      refine ⟨?_, List.forall_mem_cons.2 ⟨hall.1, List.forall_mem_cons.2 ⟨fun _ hy => ?_, hall.2⟩⟩⟩
      · exact (List.mem_cons.1 hmem).elim (fun heq => heq ▸ List.mem_cons_self)
          fun hrest => List.mem_cons_of_mem b (List.mem_cons_of_mem y hrest)
      · have hby' : Beats b y := beats_of_not_lt hb hy hby (Bool.eq_false_iff.2 hlt)
        by_cases hbc : b = c
        · exact hbc ▸ hby'
        · exact (hall.1 hbc hb).trans hby'

section Bids

variable (m : Model) (devices : List Device) (preference : Preference) (i : Nat)

/-- Whether the device at a position runs an operation and has this figure for it. -/
def Bids (k : Nat) (figure : Single) : Prop :=
  ∃ d s, devices[k]? = some d ∧ m.signature i = .ok s ∧ d.Runs m i ∧
    figure = d.performance s (m.relaxed && s.operand.isFloat32) preference

/-- Whether the device at a position has a figure that is smaller than any other number, or is the
first of those with the smallest. -/
def Wins (k : Nat) : Prop :=
  ∃ figure, Bids m devices preference i k figure ∧
    ∀ k' figure', Bids m devices preference i k' figure' → k' ≠ k → figure'.isNaN = false →
      Beats (k, figure) (k', figure')

variable {m devices preference i} {support : List (List Bool)}

/-- The candidates are the bids. -/
theorem mem_candidates_iff_bids (hdevices : ∀ d ∈ devices, d.Initialized)
    (hsupport : devices.mapM (Assignment.support m) = .ok support) {s : Signature}
    (hs : m.signature i = .ok s) {k : Nat} {figure : Single} :
    (k, figure) ∈ candidates devices support i s (m.relaxed && s.operand.isFloat32) preference ↔
      Bids m devices preference i k figure := by
  rw [mem_candidates]
  constructor
  · rintro ⟨d, flags, hd, hflags, hset, rfl⟩
    obtain ⟨flags', hflags', hanswer⟩ := counterpart (mapM_eq_ok.1 hsupport) hd
    obtain rfl := Option.some.inj (hflags.symm.trans hflags')
    have hinitialized := hdevices d (List.mem_of_getElem? hd)
    exact ⟨d, s, hd, hs, (hinitialized.support_iff hanswer i).1 hset, rfl⟩
  · rintro ⟨d, s', hd, hs', hruns, rfl⟩
    obtain rfl := Except.ok.inj (hs.symm.trans hs')
    obtain ⟨flags, hflags, hanswer⟩ := counterpart (mapM_eq_ok.1 hsupport) hd
    have hinitialized := hdevices d (List.mem_of_getElem? hd)
    exact ⟨d, flags, hd, hflags, (hinitialized.support_iff hanswer i).2 hruns, rfl⟩

/-- Candidates come in the order of the devices. -/
theorem candidates_sorted (s : Signature) (relaxed : Bool) :
    (candidates devices support i s relaxed preference).Pairwise fun x y => x.1 < y.1 := by
  have hpositions : ((devices.zip support).zipIdx).Pairwise fun x y => x.2 < y.2 := by
    rw [← List.pairwise_map (f := Prod.snd), List.zipIdx_map_snd]
    exact List.pairwise_lt_range'
  refine List.Pairwise.filterMap _ (fun x y hxy a ha b hb => ?_) hpositions
  dsimp only at ha hb
  split at ha
  · split at hb
    · obtain rfl := Option.some.inj ha
      obtain rfl := Option.some.inj hb
      exact hxy
    · cases hb
  · cases ha

theorem Bids.unique {k : Nat} {figure figure' : Single}
    (h : Bids m devices preference i k figure) (h' : Bids m devices preference i k figure') :
    figure = figure' := by
  obtain ⟨d, s, hd, hs, -, rfl⟩ := h
  obtain ⟨d', s', hd', hs', -, rfl⟩ := h'
  obtain rfl := Option.some.inj (hd.symm.trans hd')
  obtain rfl := Except.ok.inj (hs.symm.trans hs')
  rfl

theorem Bids.lt {k : Nat} {figure : Single} (h : Bids m devices preference i k figure) :
    i < m.operations.length := by
  obtain ⟨d, s, -, hs, -⟩ := h
  exact Model.lt_of_signature hs

/-- The device that an operation is assigned to has bid for it.  If the first bid is not a number it
is that of the device, and otherwise the device wins. -/
theorem bids_of_assign (hdevices : ∀ d ∈ devices, d.Initialized)
    (hsupport : devices.mapM (Assignment.support m) = .ok support) {k : Nat}
    (h : assign m devices support preference i = .ok k) :
    (∃ figure, Bids m devices preference i k figure) ∧
      ∃ first figure, Bids m devices preference i first figure ∧
        (∀ k' figure', Bids m devices preference i k' figure' → first ≤ k') ∧
        (figure.isNaN = true → k = first) ∧
        (figure.isNaN = false → Wins m devices preference i k) := by
  rw [assign] at h
  obtain ⟨s, hs, h⟩ := bind_eq_ok.1 h
  dsimp only at h
  have hbids : ∀ b : Nat × Single,
      b ∈ candidates devices support i s (m.relaxed && s.operand.isFloat32) preference ↔
        Bids m devices preference i b.1 b.2 :=
    fun b => mem_candidates_iff_bids hdevices hsupport (mapError_eq_ok.1 hs)
  have hsorted : (candidates devices support i s (m.relaxed && s.operand.isFloat32)
      preference).Pairwise fun x y => x.1 < y.1 := candidates_sorted s _
  generalize candidates devices support i s (m.relaxed && s.operand.isFloat32) preference = bids
    at h hbids hsorted
  cases bids with
  | nil => exact absurd h throw_ne_ok
  | cons b rest =>
    obtain ⟨c, hbest⟩ : ∃ c, (b :: rest).foldl better none = some c :=
      Option.isSome_iff_exists.1 (isSome_foldl_better (Or.inl (List.cons_ne_nil b rest)))
    rw [hbest] at h
    obtain rfl := pure_eq_ok.1 h
    have hc : c ∈ b :: rest := (mem_of_foldl_better hbest).resolve_right (by simp)
    refine ⟨⟨c.2, (hbids c).1 hc⟩, b.1, b.2, (hbids b).1 List.mem_cons_self, ?_, ?_, ?_⟩
    · intro k' figure' hbid
      rcases List.mem_cons.1 ((hbids (k', figure')).2 hbid) with heq | hrest
      · exact heq ▸ le_rfl
      · exact ((List.pairwise_cons.1 hsorted).1 _ hrest).le
    · intro hb
      have hkept := foldl_better_of_isNaN hb rest
      exact congrArg Prod.fst (Option.some.inj (hbest.symm.trans hkept))
    · intro hb
      obtain ⟨-, hbeats⟩ := foldl_better_of_number hb hsorted hbest
      refine ⟨c.2, (hbids c).1 hc, fun k' figure' hbid hne hnumber => ?_⟩
      exact hbeats (k', figure') ((hbids _).2 hbid) (fun heq => hne (congrArg Prod.fst heq)) hnumber

/-- A device without a number wins only where there is no number at all. -/
theorem wins_iff_of_isNaN {k : Nat} {figure : Single} (hbid : Bids m devices preference i k figure)
    (hfigure : figure.isNaN = true) :
    Wins m devices preference i k ↔
      ∀ k' figure', Bids m devices preference i k' figure' → k' ≠ k → figure'.isNaN = true := by
  constructor
  · rintro ⟨figure', hbid', hbeats⟩ k' figure'' hbid'' hne
    obtain rfl := hbid.unique hbid'
    by_contra hnumber
    have hbeaten := hbeats k' figure'' hbid'' hne (Bool.eq_false_iff.2 hnumber)
    rw [(beats_iff.1 hbeaten).1] at hfigure
    cases hfigure
  · intro hnone
    refine ⟨figure, hbid, fun k' figure' hbid' hne hnumber => ?_⟩
    rw [hnone k' figure' hbid' hne] at hnumber
    cases hnumber

end Bids

end Assignment

/-! ## The plan -/

namespace Plan

open Assignment in
/-- In a plan for devices that have told what they support, every operation lies in a step of a
device that runs it.  If the first device that runs the operation has a number for a figure, the
operation is where the smallest number is, and where the first of several equal ones is.  If not,
the operation is with that first device, and so it misses any device that has a number. -/
theorem partition_selects {m : Model} (hbuilt : Built m) (hvalid : m.validate = .ok ())
    {devices : List Device} (hdevices : ∀ d ∈ devices, d.Initialized) {preference : Preference}
    {p : Plan} (h : partition m devices preference = .ok p) :
    (∀ i < m.operations.length, ∃ s ∈ p.steps, i ∈ s.operations) ∧
      ∀ s ∈ p.steps, ∃ k : Nat, devices[k]? = some s.device ∧ ∀ i ∈ s.operations,
        s.device.Runs m i ∧
        ∃ first figure, Bids m devices preference i first figure ∧
          (∀ k' figure', Bids m devices preference i k' figure' → first ≤ k') ∧
          (figure.isNaN = true → k = first) ∧
          (Wins m devices preference i k ↔ figure.isNaN = false ∨
            ∀ k' figure', Bids m devices preference i k' figure' → k' ≠ k →
              figure'.isNaN = true) := by
  obtain ⟨assignment, hassignment, hplaced⟩ := placed_of_partition hbuilt hvalid h
  obtain ⟨hcovered, -⟩ := ordered_of_partition hbuilt hvalid h
  obtain ⟨support, hsupport, hassigned⟩ := bind_eq_ok.1 hassignment
  refine ⟨fun i hi => List.mem_flatMap.1 (hcovered.mem_iff.2 (List.mem_range.2 hi)), ?_⟩
  intro s hs
  obtain ⟨-, k, hk, hoperations⟩ := hplaced s hs
  refine ⟨k, hk, fun i hi => ?_⟩
  have hlt := List.mem_range.1 (hcovered.mem_iff.1 (List.mem_flatMap.2 ⟨s, hs, hi⟩))
  obtain ⟨k', hk', hassign⟩ := counterpart (mapM_eq_ok.1 hassigned) (List.getElem?_range hlt)
  obtain rfl := Option.some.inj ((hoperations i hi).symm.trans hk')
  obtain ⟨⟨own, d, signature, hd, -, hruns, -⟩, first, figure, hbid, hfirst, hnan, hnumber⟩ :=
    bids_of_assign hdevices hsupport hassign
  obtain rfl := Option.some.inj (hk.symm.trans hd)
  refine ⟨hruns, first, figure, hbid, hfirst, hnan, ?_⟩
  cases hfigure : figure.isNaN with
  | false => exact ⟨fun _ => Or.inl rfl, fun _ => hnumber hfigure⟩
  | true =>
    obtain rfl := hnan hfigure
    rw [wins_iff_of_isNaN hbid hfigure]
    exact ⟨Or.inr, fun hor => hor.resolve_left (by decide)⟩

/-! ## Devices that differ in their figures -/

/-- A device that runs whatever can be interpreted, with one figure throughout. -/
def rated (name : String) (figure : Single) : Device :=
  (Device.new name (ReferenceDriver.toDriver
    { name, config := ReferenceConfig.withPerformance {} ⟨figure, figure⟩, key := default })
      .full).activate.1

theorem bids_rated {m : Model} {devices : List Device} {i k : Nat} {name : String}
    {figure : Single} {s : Signature} (hk : devices[k]? = some (rated name figure))
    (hs : m.signature i = .ok s) (hmem : s ∈ Interpreter.signatures) (preference : Preference) :
    Assignment.Bids m devices preference i k figure := by
  have hruns : (rated name figure).Runs m i := by
    refine .declared ?_ ?_ hs hmem rfl
    · show Interpreter.signatures ≠ []
      decide
    · show CoverageMode.full ≠ .occurrenceParity
      decide
  refine ⟨_, s, hk, hs, hruns, ?_⟩
  show figure = Performance.figure (if _ then ⟨figure, figure⟩
    else if _ then ⟨figure, figure⟩ else ⟨figure, figure⟩) preference
  rw [ite_self, ite_self]
  cases preference <;> rfl

/-- Two fast devices between a slow one and one that has no number. -/
def contenders : List Device :=
  [rated "slow" ⟨0x40000000⟩, rated "fast" ⟨0x3f000000⟩, rated "equal" ⟨0x3f000000⟩,
    rated "vague" .nan]

/-- The chain is run by the first of the fast devices. -/
theorem partition_selects_fast :
    Built chain ∧ chain.validate = .ok () ∧ (∀ d ∈ contenders, d.Initialized) ∧
      ∃ p, partition chain contenders .fastSingleAnswer = .ok p ∧
        (∀ i < chain.operations.length, ∃ s ∈ p.steps, i ∈ s.operations) ∧
        ∀ s ∈ p.steps, ∃ k : Nat, contenders[k]? = some s.device ∧ ∀ i ∈ s.operations,
          s.device.Runs chain i ∧ Assignment.Wins chain contenders .fastSingleAnswer i k := by
  have hbuilt : Built chain := ⟨_, rfl⟩
  have hvalid : chain.validate = .ok () := by decide
  have hdevices : ∀ d ∈ contenders, d.Initialized := by
    simp only [contenders, List.forall_mem_cons]
    exact ⟨⟨_, _, _, rfl⟩, ⟨_, _, _, rfl⟩, ⟨_, _, _, rfl⟩, ⟨_, _, _, rfl⟩, by simp⟩
  obtain ⟨p, hp⟩ : ∃ p, partition chain contenders .fastSingleAnswer = .ok p := ⟨_, rfl⟩
  obtain ⟨hcovered, hselected⟩ := partition_selects hbuilt hvalid hdevices hp
  refine ⟨hbuilt, hvalid, hdevices, p, hp, hcovered, fun s hs => ?_⟩
  obtain ⟨k, hk, hoperations⟩ := hselected s hs
  refine ⟨k, hk, fun i hi => ?_⟩
  obtain ⟨hruns, first, figure, hbid, hfirst, -, hwins⟩ := hoperations i hi
  refine ⟨hruns, hwins.2 (Or.inl ?_)⟩
  -- the first device bids a number for every operation
  have hknown : ∀ i < chain.operations.length,
      ∃ signature ∈ Interpreter.signatures, chain.signature i = .ok signature := by
    intro i hi
    obtain rfl | rfl : i = 0 ∨ i = 1 := by
      have hi : i < 2 := hi
      omega
    · exact ⟨⟨.relu, .tensorFloat32⟩, by decide, by decide⟩
    · exact ⟨⟨.floor, .tensorFloat32⟩, by decide, by decide⟩
  obtain ⟨signature, hmem, hsignature⟩ := hknown i hbid.lt
  have hslow : Assignment.Bids chain contenders .fastSingleAnswer i 0 ⟨0x40000000⟩ :=
    bids_rated rfl hsignature hmem _
  obtain rfl := Nat.le_zero.1 (hfirst 0 _ hslow)
  rw [hbid.unique hslow]
  decide

/-- One operation. -/
def rectified : Model := Model.performAll {} [
  .addOperand { type := .tensorFloat32, dimensions := [2] },
  .addOperand { type := .tensorFloat32, dimensions := [2] },
  .addOperation .relu [0] [1],
  .identify [0] [1]]

/-- A device that has no number before one that has. -/
def vagueFirst : List Device := [rated "vague" .nan, rated "known" ⟨0x3f800000⟩]

/-- A device without a number keeps the operation from the only device that has one. -/
theorem partition_vague :
    Built rectified ∧ rectified.validate = .ok () ∧ (∀ d ∈ vagueFirst, d.Initialized) ∧
      ∃ p s, partition rectified vagueFirst .fastSingleAnswer = .ok p ∧ s ∈ p.steps ∧
        s.operations = [0] ∧ vagueFirst[0]? = some s.device ∧
        Assignment.Bids rectified vagueFirst .fastSingleAnswer 0 1 ⟨0x3f800000⟩ ∧
        ¬ Assignment.Wins rectified vagueFirst .fastSingleAnswer 0 0 := by
  have hsignature : rectified.signature 0 = .ok ⟨.relu, .tensorFloat32⟩ := by decide
  have hknown : Assignment.Bids rectified vagueFirst .fastSingleAnswer 0 1 ⟨0x3f800000⟩ :=
    bids_rated rfl hsignature (by decide) _
  have hvague : Assignment.Bids rectified vagueFirst .fastSingleAnswer 0 0 .nan :=
    bids_rated rfl hsignature (by decide) _
  refine ⟨⟨_, rfl⟩, by decide, ?_, _, _, rfl, List.mem_singleton_self _, rfl, rfl, hknown, ?_⟩
  · simp only [vagueFirst, List.forall_mem_cons]
    exact ⟨⟨_, _, _, rfl⟩, ⟨_, _, _, rfl⟩, by simp⟩
  · rw [Assignment.wins_iff_of_isNaN hvague (by decide)]
    intro hnone
    exact absurd (hnone 1 _ hknown (by decide)) (by decide)

end Plan

end NeuralDispatch
