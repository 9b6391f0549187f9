import Mathlib.Data.List.Forall2

/-!
# Answers that may be refusals

Checks and builders answer with `Except`, evaluations with `Option`.  This file says when a chain of
such answers succeeds: a sequence when each part does, a traversal when every element does, and a
fold when every turn does.  The lemmas about sequences are tagged for `simp`, so that a successful
run of a `do` block falls apart into its parts.
-/

namespace NeuralDispatch.Answer

variable {ε ε' α β : Type}

/-! ## Sequences -/

@[simp] theorem bind_eq_ok {x : Except ε α} {f : α → Except ε β} {b : β} :
    (x >>= f) = .ok b ↔ ∃ a, x = .ok a ∧ f a = .ok b := by
  cases x <;> simp [bind, Except.bind]

@[simp] theorem pure_eq_ok {a b : α} : (pure a : Except ε α) = .ok b ↔ a = b := by
  simp [pure, Except.pure]

@[simp] theorem throw_ne_ok {e : ε} {a : α} : (throw e : Except ε α) ≠ .ok a := by
  simp [throw, throwThe, MonadExceptOf.throw]

@[simp] theorem map_eq_ok {x : Except ε α} {f : α → β} {b : β} :
    (f <$> x) = .ok b ↔ ∃ a, x = .ok a ∧ f a = b := by
  cases x <;> simp [Functor.map, Except.map]

@[simp] theorem mapError_eq_ok {x : Except ε α} {f : ε → ε'} {a : α} :
    x.mapError f = .ok a ↔ x = .ok a := by
  cases x <;> simp [Except.mapError]

theorem ok_bind {a : α} {f : α → Except ε β} : (Except.ok a >>= f) = f a := rfl

theorem error_bind {e : ε} {f : α → Except ε β} : (Except.error e >>= f) = .error e := rfl

/-! ## Traversals -/

/-- A check of a list succeeds if it does for each element. -/
theorem forM_eq_ok {xs : List α} {f : α → Except ε Unit} {u : Unit} :
    xs.forM f = .ok u ↔ ∀ x ∈ xs, f x = .ok () := by
  induction xs with
  | nil => exact ⟨fun _ _ h => absurd h List.not_mem_nil, fun _ => rfl⟩
  | cons x xs ih =>
    rw [List.forM_eq_forM, List.forM_cons, bind_eq_ok, ← List.forM_eq_forM]
    simp only [ih, List.mem_cons, forall_eq_or_imp]
    exact ⟨fun ⟨_, hx, hxs⟩ => ⟨hx, hxs⟩, fun ⟨hx, hxs⟩ => ⟨_, hx, hxs⟩⟩

theorem mapM_eq_ok {xs : List α} {ys : List β} {f : α → Except ε β} :
    xs.mapM f = .ok ys ↔ List.Forall₂ (fun x y => f x = .ok y) xs ys := by
  induction xs generalizing ys with
  | nil => rw [List.mapM_nil, pure_eq_ok, List.forall₂_nil_left_iff, eq_comm]
  | cons x xs ih =>
    rw [List.mapM_cons, bind_eq_ok, List.forall₂_cons_left_iff]
    simp only [bind_eq_ok, pure_eq_ok, ih]
    constructor
    · rintro ⟨y, hy, ys', hys, rfl⟩
      exact ⟨y, ys', hy, hys, rfl⟩
    · rintro ⟨y, ys', hy, hys, rfl⟩
      exact ⟨y, hy, ys', hys, rfl⟩

theorem mapM_ok_of_forall {xs : List α} {f : α → Except ε β} (h : ∀ x ∈ xs, ∃ y, f x = .ok y) :
    ∃ ys, xs.mapM f = .ok ys := by
  induction xs with
  | nil => exact ⟨[], rfl⟩
  | cons x xs ih =>
    obtain ⟨y, hy⟩ := h x List.mem_cons_self
    obtain ⟨ys, hys⟩ := ih fun z hz => h z (List.mem_cons_of_mem x hz)
    exact ⟨y :: ys, by rw [List.mapM_cons, hy, ok_bind, hys]; rfl⟩

/-- A traversal succeeds with answers of the right kind if each element is answered so. -/
theorem mapM_ok_of_forall_related {R : α → β → Prop} {xs : List α} {f : α → Except ε β}
    (h : ∀ x ∈ xs, ∃ y, f x = .ok y ∧ R x y) :
    ∃ ys, xs.mapM f = .ok ys ∧ List.Forall₂ R xs ys := by
  obtain ⟨ys, hys⟩ := mapM_ok_of_forall fun x hx => (h x hx).imp fun y hy => hy.1
  have hanswers := (List.forall₂_and_left _ _).2 ⟨h, mapM_eq_ok.1 hys⟩
  refine ⟨ys, hys, hanswers.imp ?_⟩
  rintro x y ⟨⟨y', hy', hxy⟩, hy⟩
  obtain rfl := Except.ok.inj (hy'.symm.trans hy)
  exact hxy

/-- A traversal fails with the answer to the first element that is refused. -/
theorem mapM_eq_error {xs : List α} {f : α → Except ε β} {e : ε} :
    xs.mapM f = .error e ↔
      ∃ before x after ys, xs = before ++ x :: after ∧ before.mapM f = .ok ys ∧ f x = .error e := by
  induction xs with
  | nil => simp [pure, Except.pure]
  | cons x xs ih =>
    rw [List.mapM_cons]
    cases hx : f x with
    | error e' =>
      rw [error_bind]
      constructor
      · intro h
        exact ⟨[], x, xs, [], rfl, rfl, by rw [hx]; simpa using h⟩
      · rintro ⟨before, y, after, ys, hsplit, hbefore, hy⟩
        cases before with
        | nil => cases hsplit; rw [hx] at hy; cases hy; rfl
        | cons z before =>
          cases hsplit
          rw [List.mapM_cons, hx] at hbefore
          cases hbefore
    | ok y =>
      rw [ok_bind]
      constructor
      · intro h
        cases hxs : xs.mapM f with
        | ok ys => rw [hxs] at h; cases h
        | error e' =>
          rw [hxs] at h
          obtain ⟨before, z, after, ys, rfl, hbefore, hz⟩ := ih.1 (hxs.trans h)
          refine ⟨x :: before, z, after, y :: ys, rfl, ?_, hz⟩
          rw [List.mapM_cons, hx, ok_bind, hbefore]
          rfl
      · rintro ⟨before, z, after, ys, hsplit, hbefore, hz⟩
        cases before with
        | nil => cases hsplit; rw [hx] at hz; cases hz
        | cons w before =>
          cases hsplit
          rw [List.mapM_cons, hx, ok_bind, bind_eq_ok] at hbefore
          obtain ⟨ys', hbefore, -⟩ := hbefore
          rw [ih.2 ⟨before, z, after, ys', rfl, hbefore, hz⟩]
          rfl

/-- The first element that is refused, by its position. -/
theorem mapM_error_of_first {xs : List α} {f : α → Except ε β} {i : Nat} {x : α} {e : ε}
    (hx : xs[i]? = some x) (before : ∀ z ∈ xs.take i, ∃ y, f z = .ok y) (h : f x = .error e) :
    xs.mapM f = .error e := by
  obtain ⟨ys, hys⟩ := mapM_ok_of_forall before
  obtain ⟨hlt, rfl⟩ := List.getElem?_eq_some_iff.1 hx
  refine mapM_eq_error.2 ⟨xs.take i, xs[i], xs.drop (i + 1), ys, ?_, hys, h⟩
  rw [← List.drop_eq_getElem_cons hlt, List.take_append_drop]

theorem mapM_eq_some {xs : List α} {ys : List β} {f : α → Option β} :
    xs.mapM f = some ys ↔ List.Forall₂ (fun x y => f x = some y) xs ys := by
  induction xs generalizing ys with
  | nil => simp [eq_comm]
  | cons x xs ih =>
    rw [List.mapM_cons, List.forall₂_cons_left_iff]
    simp only [Option.bind_eq_bind, Option.bind_eq_some_iff, Option.pure_def, Option.some.injEq, ih]
    constructor
    · rintro ⟨y, hy, ys', hys, rfl⟩
      exact ⟨y, ys', hy, hys, rfl⟩
    · rintro ⟨y, ys', hy, hys, rfl⟩
      exact ⟨y, hy, ys', hys, rfl⟩

/-- A traversal fails at the first element without an answer. -/
theorem exists_of_mapM_eq_none {xs : List α} {f : α → Option β} (h : xs.mapM f = none) :
    ∃ before x after ys, xs = before ++ x :: after ∧ before.mapM f = some ys ∧ f x = none := by
  induction xs with
  | nil => cases h
  | cons x xs ih =>
    cases hx : f x with
    | none => exact ⟨[], x, xs, [], rfl, rfl, hx⟩
    | some y =>
      rw [List.mapM_cons, hx] at h
      have hrest : xs.mapM f = none := by
        cases hys : xs.mapM f with
        | none => rfl
        | some ys => simp [hys] at h
      obtain ⟨before, z, after, ys, rfl, hbefore, hz⟩ := ih hrest
      exact ⟨x :: before, z, after, y :: ys, rfl, by simp [hx, hbefore], hz⟩

theorem mapM_map {γ : Type} {f : α → Option β} {g : β → γ} {xs : List α} :
    xs.mapM (fun x => (f x).map g) = (xs.mapM f).map (List.map g) := by
  induction xs with
  | nil => rfl
  | cons x rest ih =>
    rw [List.mapM_cons, List.mapM_cons, ih]
    cases hx : f x with
    | none => rfl
    | some y => cases rest.mapM f <;> rfl

theorem mapM_eq_of_forall₂ {γ : Type} {xs : List α} {ys : List γ} {f : α → Option β}
    {g : γ → Option β} (h : List.Forall₂ (fun x y => f x = g y) xs ys) : xs.mapM f = ys.mapM g := by
  induction h with
  | nil => rfl
  | cons hxy _ ih => rw [List.mapM_cons, List.mapM_cons, hxy, ih]

theorem mapM_eq_of_forall {xs : List α} {f g : α → Option β} (h : ∀ x ∈ xs, f x = g x) :
    xs.mapM f = xs.mapM g := mapM_eq_of_forall₂ (List.forall₂_same.2 h)

/-! ## Lists that correspond -/

/-- What stands at a position of the one list has its counterpart at that of the other. -/
theorem counterpart {R : α → β → Prop} {xs : List α} {ys : List β} (h : List.Forall₂ R xs ys)
    {i : Nat} {x : α} (hx : xs[i]? = some x) : ∃ y, ys[i]? = some y ∧ R x y := by
  induction h generalizing i with
  | nil => simp at hx
  | cons hxy _ ih =>
    cases i with
    | zero => exact ⟨_, rfl, Option.some.inj hx ▸ hxy⟩
    | succ i => exact ih hx

theorem counterpart_mem {R : α → β → Prop} {xs : List α} {ys : List β} (h : List.Forall₂ R xs ys)
    {x : α} (hx : x ∈ xs) : ∃ y ∈ ys, R x y := by
  obtain ⟨i, hi⟩ := List.mem_iff_getElem?.1 hx
  obtain ⟨y, hy, hxy⟩ := counterpart h hi
  exact ⟨y, List.mem_of_getElem? hy, hxy⟩

theorem exists_of_mapM_eq_some {xs : List α} {ys : List β} {f : α → Option β}
    (h : xs.mapM f = some ys) {x : α} (hx : x ∈ xs) : ∃ y, f x = some y := by
  obtain ⟨y, -, hy⟩ := counterpart_mem (mapM_eq_some.1 h) hx
  exact ⟨y, hy⟩

theorem counterpart_mapIdx {R : α → β → Prop} {xs : List α} {ys : List β} {f : Nat → β → β}
    (h : List.Forall₂ R xs ys) (hf : ∀ i x y, R x y → R x (f i y)) :
    List.Forall₂ R xs (ys.mapIdx f) := by
  induction h generalizing f with
  | nil => exact .nil
  | cons hxy _ ih =>
    rw [List.mapIdx_cons]
    exact .cons (hf 0 _ _ hxy) (ih fun i => hf (i + 1))

theorem flatMap_eq_of_forall₂ {γ : Type} {f : α → List γ} {g : β → List γ} {xs : List α}
    {ys : List β} (h : List.Forall₂ (fun x y => f x = g y) xs ys) :
    xs.flatMap f = ys.flatMap g := by
  induction h with
  | nil => rfl
  | cons hxy _ ih => rw [List.flatMap_cons, List.flatMap_cons, hxy, ih]

/-! ## Folds -/

/-- A fold succeeds if every turn does. -/
theorem foldlM_ok_of_forall {xs : List α} {f : β → α → Except ε β}
    (h : ∀ x ∈ xs, ∀ b, ∃ b', f b x = .ok b') (b : β) : ∃ c, xs.foldlM f b = .ok c := by
  induction xs generalizing b with
  | nil => exact ⟨b, rfl⟩
  | cons x xs ih =>
    obtain ⟨b', hb'⟩ := h x List.mem_cons_self b
    rw [List.foldlM_cons, hb', ok_bind]
    exact ih (fun y hy => h y (List.mem_cons_of_mem x hy)) b'

theorem foldlM_concat_eq_some {xs : List α} {x : α} {f : β → α → Option β} {b d : β} :
    (xs ++ [x]).foldlM f b = some d ↔ ∃ c, xs.foldlM f b = some c ∧ f c x = some d := by
  simp [List.foldlM_append, Option.bind_eq_some_iff]

/-- Two folds go the same way if each turn keeps them related. -/
theorem foldlM_related {γ : Type} {R : β → γ → Prop} {f : β → α → Option β} {g : γ → α → Option γ}
    {xs : List α} (hstep : ∀ x ∈ xs, ∀ b c b', R b c → f b x = some b' →
      ∃ c', g c x = some c' ∧ R b' c')
    {b d : β} {c : γ} (h : R b c) (hfold : xs.foldlM f b = some d) :
    ∃ d', xs.foldlM g c = some d' ∧ R d d' := by
  induction xs generalizing b c with
  | nil => exact ⟨c, rfl, Option.some.inj hfold ▸ h⟩
  | cons x xs ih =>
    obtain ⟨hx, hxs⟩ := List.forall_mem_cons.1 hstep
    rw [List.foldlM_cons] at hfold
    obtain ⟨b', hb', hrest⟩ := Option.bind_eq_some_iff.1 hfold
    obtain ⟨c', hc', hrelated⟩ := hx b c b' h hb'
    obtain ⟨d', hd', hend⟩ := ih hxs hrelated hrest
    exact ⟨d', by rw [List.foldlM_cons, hc']; exact hd', hend⟩

/-- What each turn of a fold preserves, the fold does. -/
theorem foldlM_preserves {P : β → Prop} {f : β → α → Option β} {xs : List α}
    (hstep : ∀ x ∈ xs, ∀ b b', P b → f b x = some b' → P b') {b d : β} (h : P b)
    (hfold : xs.foldlM f b = some d) : P d := by
  obtain ⟨-, -, hend⟩ := foldlM_related (R := fun b (_ : Unit) => P b) (g := fun c _ => some c)
    (fun x hx b c b' hb hb' => ⟨c, rfl, hstep x hx b b' hb hb'⟩) (c := ()) h hfold
  exact hend

/-- A fold comes to its end only if it gets over each element. -/
theorem exists_of_foldlM_eq_some {f : β → α → Option β} {xs : List α} {b d : β}
    (h : xs.foldlM f b = some d) {x : α} (hx : x ∈ xs) : ∃ c c', f c x = some c' := by
  obtain ⟨before, after, rfl⟩ := List.append_of_mem hx
  rw [List.foldlM_append] at h
  obtain ⟨c, -, hrest⟩ := Option.bind_eq_some_iff.1 h
  rw [List.foldlM_cons] at hrest
  obtain ⟨c', hc', -⟩ := Option.bind_eq_some_iff.1 hrest
  exact ⟨c, c', hc'⟩

theorem foldlM_eq_of_forall {xs : List α} {f g : β → α → Option β}
    (h : ∀ x ∈ xs, ∀ b, f b x = g b x) (b : β) : xs.foldlM f b = xs.foldlM g b := by
  induction xs generalizing b with
  | nil => rfl
  | cons x rest ih =>
    obtain ⟨hx, hrest⟩ := List.forall_mem_cons.1 h
    rw [List.foldlM_cons, List.foldlM_cons, hx]
    exact bind_congr fun c => ih hrest c

end NeuralDispatch.Answer
