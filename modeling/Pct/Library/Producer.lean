import Mathlib.Logic.Basic

/-!
# Iterators of unknown kind

An iterator that a function gets from its caller answers every call, also those behind its
end, and may even go on. `Drains` collects what the calls up to the end return. A fused
iterator stays at its end.
-/

namespace Rust

structure Producer (σ α : Type) where
  next : σ → Option α × σ

namespace Producer

variable {σ α : Type} (S : Producer σ α)

/-- From the state `s` the iterator returns these elements and then ends. -/
inductive Drains : σ → List α → Prop where
  | nil {s t : σ} (h : S.next s = (none, t)) : Drains s []
  | cons {s t : σ} {x : α} {xs : List α} (h : S.next s = (some x, t)) (hxs : Drains t xs) :
      Drains s (x :: xs)

variable {S}

theorem Drains.next_of_nil {s : σ} (h : S.Drains s []) : ∃ t, S.next s = (none, t) := by
  cases h with
  | nil h => exact ⟨_, h⟩

theorem Drains.next_of_cons {s : σ} {x : α} {xs : List α} (h : S.Drains s (x :: xs)) :
    ∃ t, S.next s = (some x, t) ∧ S.Drains t xs := by
  cases h with
  | cons h hxs => exact ⟨_, h, hxs⟩

theorem Drains.unique {s : σ} {xs ys : List α} (h : S.Drains s xs) (h' : S.Drains s ys) :
    xs = ys := by
  induction h generalizing ys with
  | nil hnext =>
    cases h' with
    | nil => rfl
    | cons hnext' => simp [hnext] at hnext'
  | cons hnext _ ih =>
    cases h' with
    | nil hnext' => simp [hnext] at hnext'
    | cons hnext' hys =>
      rw [hnext, Prod.mk.injEq, Option.some.injEq] at hnext'
      obtain ⟨rfl, rfl⟩ := hnext'
      rw [ih hys]

variable (S)

/-- An iterator that has ended stays so. -/
def Fused : Prop := ∀ s t, S.next s = (none, t) → ∃ u, S.next t = (none, u)

variable {S}

theorem Fused.drains_nil (hS : S.Fused) {s t : σ} (h : S.next s = (none, t)) : S.Drains t [] := by
  obtain ⟨u, hu⟩ := hS s t h
  exact .nil hu

/-- The iterator over the elements of a slice. -/
def ofSlice : Producer (List α) α where
  next
    | [] => (none, [])
    | x :: xs => (some x, xs)

theorem fused_ofSlice : (ofSlice (α := α)).Fused := by
  intro s t h
  cases s with
  | nil =>
    obtain rfl : [] = t := by simpa [ofSlice] using h
    exact ⟨[], rfl⟩
  | cons x xs => simp [ofSlice] at h

theorem drains_ofSlice (xs : List α) : ofSlice.Drains xs xs := by
  induction xs with
  | nil => exact .nil rfl
  | cons x xs ih => exact .cons rfl ih

end Producer

end Rust
