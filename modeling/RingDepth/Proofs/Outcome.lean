import Mathlib.Data.List.Forall2
import RingDepth.Counter

/-!
# Computations that come to a result

A computation of several parts succeeds exactly when each part does. These lemmas take such a success
apart, and are used for all computations that may fail.
-/

namespace RingDepth

variable {α β ε δ : Type}

/-- Two parts succeed exactly when the first does, and the second does on its result. -/
theorem bind_eq_ok_iff {x : Except ε α} {f : α → Except ε β} {b : β} :
    x >>= f = .ok b ↔ ∃ a, x = .ok a ∧ f a = .ok b := by
  cases x with
  | error e => simp [bind, Except.bind]
  | ok a => simp [bind, Except.bind]

/-- Two parts fail exactly when the first does, or the second does on its result. -/
theorem bind_eq_error_iff {x : Except ε α} {f : α → Except ε β} {e : ε} :
    x >>= f = .error e ↔ x = .error e ∨ ∃ a, x = .ok a ∧ f a = .error e := by
  cases x with
  | error d => simp [bind, Except.bind]
  | ok a => simp [bind, Except.bind]

/-- A mapped computation succeeds exactly when the computation does. -/
theorem map_eq_ok_iff {x : Except ε α} {f : α → β} {b : β} :
    x.map f = .ok b ↔ ∃ a, x = .ok a ∧ f a = b := by
  cases x with
  | error e => simp [Except.map]
  | ok a => simp [Except.map]

/-- A success has no failure to word. -/
theorem mapError_ok {a : α} {f : ε → δ} : (.ok a : Except ε α).mapError f = .ok a := rfl

/-- A failure is worded as it is told. -/
theorem mapError_error {e : ε} {f : ε → δ} : (.error e : Except ε α).mapError f = .error (f e) := rfl

/-- Another wording of the failures changes no success. -/
theorem mapError_eq_ok_iff {x : Except ε α} {f : ε → δ} {a : α} :
    x.mapError f = .ok a ↔ x = .ok a := by
  cases x with
  | error e => simp [mapError_error]
  | ok b => simp [mapError_ok]

/-- A failure in another wording is a failure. -/
theorem mapError_eq_error_iff {x : Except ε α} {f : ε → δ} {d : δ} :
    x.mapError f = .error d ↔ ∃ e, x = .error e ∧ f e = d := by
  cases x with
  | error e => simp [mapError_error]
  | ok a => simp [mapError_ok]

/-- A wider failure changes no success of a computation that counts. -/
theorem within_eq_ok_iff {x : Except (Halt ε) α} {f : ε → δ} {a : α} :
    Halt.within f x = .ok a ↔ x = .ok a :=
  mapError_eq_ok_iff

/-- A computation that does not count succeeds as it does among those that count. -/
theorem monadLift_eq_ok_iff {x : Except ε α} {a : α} :
    (liftM x : Except (Halt ε) α) = .ok a ↔ x = .ok a :=
  mapError_eq_ok_iff

/-- A computation that does not count fails as it does among those that count. -/
theorem monadLift_eq_error_iff {x : Except ε α} {cause : Halt ε} :
    (liftM x : Except (Halt ε) α) = .error cause ↔ ∃ e, x = .error e ∧ .failure e = cause :=
  mapError_eq_error_iff

/-- A counter is raised exactly when its new value is the exact sum. -/
theorem addCounter_eq_ok_iff {a b c : UInt64} :
    (addCounter a b : Except (Halt ε) UInt64) = .ok c ↔ c.toNat = a.toNat + b.toNat := by
  rw [← addChecked?_eq_some_iff, addCounter]
  cases addChecked? a b with
  | none => simp
  | some d => simp

/-- A counter is raised if a counter holds the exact sum. -/
theorem exists_addCounter {a b : UInt64} (h : a.toNat + b.toNat < UInt64.size) :
    ∃ c, (addCounter a b : Except (Halt ε) UInt64) = .ok c :=
  ⟨UInt64.ofNat (a.toNat + b.toNat), addCounter_eq_ok_iff.mpr (UInt64.toNat_ofNat_of_lt' h)⟩

/-- A counter is not raised only if no counter holds the exact sum. -/
theorem addCounter_eq_error {a b : UInt64} {cause : Halt ε} (h : addCounter a b = .error cause) :
    cause = .overflow ∧ UInt64.size ≤ a.toNat + b.toNat := by
  rw [← addChecked?_eq_none_iff]
  rw [addCounter] at h
  split at h
  · cases h
  · rename_i hnone
    cases h
    exact ⟨rfl, hnone⟩

/-- A counter is not raised to a sum that no counter holds. -/
theorem addCounter_eq_overflow {a b : UInt64} (h : UInt64.size ≤ a.toNat + b.toNat) :
    (addCounter a b : Except (Halt ε) UInt64) = .error .overflow := by
  rw [addCounter, addChecked?_eq_none_iff.mpr h]

/-- What each step of a computation over a list keeps, the whole computation keeps. -/
theorem foldlM_preserves {p : β → Prop} {f : β → α → Except ε β}
    (hstep : ∀ {b b' : β} {a : α}, p b → f b a = .ok b' → p b') {xs : List α} {b b' : β} (hb : p b)
    (h : xs.foldlM f b = .ok b') : p b' := by
  induction xs generalizing b with
  | nil =>
    cases h
    exact hb
  | cons a xs ih =>
    obtain ⟨next, hnext, hrest⟩ := bind_eq_ok_iff.mp h
    exact ih (hstep hb hnext) hrest

/-- A computation over a list succeeds exactly when it does on each element, with the results in order. -/
theorem mapM_eq_ok_iff {f : α → Except ε β} {xs : List α} {ys : List β} :
    xs.mapM f = .ok ys ↔ List.Forall₂ (fun x y => f x = .ok y) xs ys := by
  induction xs generalizing ys with
  | nil =>
    rw [List.forall₂_nil_left_iff, List.mapM_nil]
    exact ⟨fun h => (Except.ok.inj h).symm, fun h => h ▸ rfl⟩
  | cons x xs ih =>
    rw [List.mapM_cons, List.forall₂_cons_left_iff]
    constructor
    · intro h
      obtain ⟨y, hy, hrest⟩ := bind_eq_ok_iff.mp h
      obtain ⟨rest, hys, heq⟩ := bind_eq_ok_iff.mp hrest
      exact ⟨y, rest, hy, ih.mp hys, (Except.ok.inj heq).symm⟩
    · intro h
      obtain ⟨y, rest, hy, hys, rfl⟩ := h
      exact bind_eq_ok_iff.mpr ⟨y, hy, bind_eq_ok_iff.mpr ⟨rest, ih.mpr hys, rfl⟩⟩

/-- A computation over a list fails exactly as it does on the first element on which it fails. -/
theorem mapM_eq_error_iff {f : α → Except ε β} {xs : List α} {e : ε} :
    xs.mapM f = .error e ↔
      ∃ front x back, xs = front ++ x :: back ∧ (∀ y ∈ front, ∃ z, f y = .ok z) ∧ f x = .error e := by
  induction xs with
  | nil =>
    rw [List.mapM_nil]
    refine iff_of_false nofun fun h => ?_
    obtain ⟨front, x, back, hsplit, -⟩ := h
    cases front <;> cases hsplit
  | cons x xs ih =>
    rw [List.mapM_cons, bind_eq_error_iff]
    constructor
    · intro h
      obtain hx | ⟨z, hz, hrest⟩ := h
      · exact ⟨[], x, xs, rfl, List.forall_mem_nil _, hx⟩
      · obtain hxs | ⟨zs, -, hpure⟩ := bind_eq_error_iff.mp hrest
        · obtain ⟨front, y, back, rfl, hfront, hy⟩ := ih.mp hxs
          exact ⟨x :: front, y, back, rfl, List.forall_mem_cons.mpr ⟨⟨z, hz⟩, hfront⟩, hy⟩
        · cases hpure
    · intro h
      obtain ⟨front, y, back, hsplit, hfront, hy⟩ := h
      cases front with
      | nil =>
        cases hsplit
        exact .inl hy
      | cons first front =>
        cases hsplit
        obtain ⟨⟨z, hz⟩, hfront⟩ := List.forall_mem_cons.mp hfront
        exact .inr ⟨z, hz, bind_eq_error_iff.mpr (.inl (ih.mpr ⟨front, y, back, rfl, hfront, hy⟩))⟩

/-- A computation that succeeds on each element of a list succeeds on the list, with the results in order. -/
theorem mapM_map_eq_ok {γ : Type} {f : α → Except ε β} {g : γ → α} {k : γ → β} {xs : List γ}
    (h : ∀ x ∈ xs, f (g x) = .ok (k x)) : (xs.map g).mapM f = .ok (xs.map k) := by
  rw [mapM_eq_ok_iff, List.forall₂_map_left_iff, List.forall₂_map_right_iff, List.forall₂_same]
  exact h

end RingDepth
