/-!
# Sorted lists without repetition

Sets that are shown in ascending order are kept as sorted lists.  `mem_ofList` says which elements
are in such a list, and `pairwise_ofList` that they ascend and that none comes twice.
-/

namespace NeuralDispatch.Sorted

variable {α : Type} [DecidableEq α]

/-- Puts `a` in front of the first element that it does not follow, unless it is there already. -/
def insertNew (le : α → α → Bool) (a : α) : List α → List α
  | [] => [a]
  | b :: rest =>
    if a = b then b :: rest
    else if le a b then a :: b :: rest
    else b :: insertNew le a rest

/-- The elements of a list in ascending order, each once. -/
def ofList (le : α → α → Bool) (xs : List α) : List α := xs.foldr (insertNew le) []

theorem mem_insertNew {le : α → α → Bool} {a x : α} {xs : List α} :
    x ∈ insertNew le a xs ↔ x = a ∨ x ∈ xs := by
  induction xs with
  | nil => simp [insertNew]
  | cons b rest ih =>
    simp only [insertNew]
    split
    · next h => subst h; simp
    · split
      · simp
      · simp only [List.mem_cons, ih]
        exact or_left_comm

theorem mem_ofList {le : α → α → Bool} {x : α} {xs : List α} : x ∈ ofList le xs ↔ x ∈ xs := by
  induction xs with
  | nil => simp [ofList]
  | cons a rest ih =>
    rw [List.mem_cons, ← ih]
    exact mem_insertNew

/-! ## Order -/

theorem pairwise_insertNew {le : α → α → Bool} (total : ∀ a b, le a b ∨ le b a)
    (trans : ∀ a b c, le a b → le b c → le a c) (antisymm : ∀ a b, le a b → le b a → a = b)
    (a : α) {xs : List α} (h : xs.Pairwise fun x y => le x y ∧ x ≠ y) :
    (insertNew le a xs).Pairwise fun x y => le x y ∧ x ≠ y := by
  induction xs with
  | nil => simp [insertNew]
  | cons b rest ih =>
    have ⟨hb, hrest⟩ := List.pairwise_cons.1 h
    simp only [insertNew]
    split
    · exact h
    · next hne =>
      split
      · next hle =>
        refine List.pairwise_cons.2 ⟨fun x hx => ?_, h⟩
        rcases List.mem_cons.1 hx with rfl | hx
        · exact ⟨hle, hne⟩
        · have ⟨hbx, _⟩ := hb x hx
          exact ⟨trans a b x hle hbx, fun e => hne (antisymm a b hle (e ▸ hbx))⟩
      · next hle =>
        refine List.pairwise_cons.2 ⟨fun x hx => ?_, ih hrest⟩
        rcases mem_insertNew.1 hx with rfl | hx
        · exact ⟨(total b x).resolve_right hle, Ne.symm hne⟩
        · exact hb x hx

theorem pairwise_ofList {le : α → α → Bool} (total : ∀ a b, le a b ∨ le b a)
    (trans : ∀ a b c, le a b → le b c → le a c) (antisymm : ∀ a b, le a b → le b a → a = b)
    (xs : List α) : (ofList le xs).Pairwise fun x y => le x y ∧ x ≠ y := by
  induction xs with
  | nil => exact .nil
  | cons a rest ih => exact pairwise_insertNew total trans antisymm a ih

end NeuralDispatch.Sorted
