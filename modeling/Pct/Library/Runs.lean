import Mathlib.Data.List.TakeWhile

/-!
# Maximal runs in a list

A maximal run is a contiguous part of a list whose elements satisfy `p` and that cannot
be extended in either direction. Every list is a run followed by nothing or by an element
outside of `p` and a shorter list, which is an induction principle. In a concatenation of
blocks that lie in one run each, a maximal run is a concatenation of blocks itself.
-/

namespace Runs

variable {α β : Type} {p : α → Bool}

/-- `run` is a maximal run of elements of `l` that satisfy `p`. -/
def MaximalRun (p : α → Bool) (l run : List α) : Prop :=
  ∃ pre post, l = pre ++ run ++ post ∧ (∀ x ∈ run, p x = true) ∧
    (∀ x ∈ pre.getLast?, p x = false) ∧ ∀ x ∈ post.head?, p x = false

theorem MaximalRun.mem {l run : List α} (h : MaximalRun p l run) {x : α} (hx : x ∈ run) :
    p x = true ∧ x ∈ l := by
  obtain ⟨pre, post, rfl, hrun, -⟩ := h
  exact ⟨hrun x hx, by simp [hx]⟩

theorem MaximalRun.self {l : List α} (h : ∀ x ∈ l, p x = true) : MaximalRun p l l :=
  ⟨[], [], by simp, h, by simp, by simp⟩

/-- A run in front of an element outside of `p` is maximal. -/
theorem MaximalRun.left {run : List α} (h : ∀ x ∈ run, p x = true) {x : α} (hx : p x = false)
    (l : List α) : MaximalRun p (run ++ x :: l) run :=
  ⟨[], x :: l, by simp, h, by simp, by simpa using hx⟩

/-- The runs behind an element outside of `p` stay maximal. -/
theorem MaximalRun.right {l run : List α} (h : MaximalRun p l run) {x : α} (hx : p x = false)
    (a : List α) : MaximalRun p (a ++ x :: l) run := by
  obtain ⟨pre, post, rfl, hrun, hpre, hpost⟩ := h
  refine ⟨a ++ x :: pre, post, by simp, hrun, ?_, hpost⟩
  intro y hy
  rw [List.getLast?_append, List.getLast?_cons, Option.some_or, Option.mem_some_iff] at hy
  cases hlast : pre.getLast? with
  | none => rwa [← hy, hlast]
  | some z =>
    rw [hlast] at hy
    exact hpre y (hlast.trans (congrArg some hy))

/-- Induction on a list, one maximal run after the other. -/
theorem run_induction {motive : List α → Prop}
    (run : ∀ l, (∀ x ∈ l, p x = true) → motive l)
    (cut : ∀ a x l, (∀ y ∈ a, p y = true) → p x = false → motive l → motive (a ++ x :: l))
    (l : List α) : motive l := by
  induction hn : l.length using Nat.strong_induction_on generalizing l with
  | _ n ih =>
    have hall : ∀ x ∈ l.takeWhile p, p x = true := fun x => List.mem_takeWhile_imp
    have hsplit := List.takeWhile_append_dropWhile (p := p) (l := l)
    cases hrest : l.dropWhile p with
    | nil =>
      rw [hrest, List.append_nil] at hsplit
      rw [← hsplit]
      exact run _ hall
    | cons x rest =>
      have hx : p x = false := by
        have := List.head?_dropWhile_not p l
        simpa [hrest] using this
      rw [hrest] at hsplit
      have hlen := congrArg List.length hsplit
      rw [List.length_append, List.length_cons] at hlen
      rw [← hsplit]
      exact cut _ x rest hall hx (ih rest.length (by omega) rest rfl)

/-! ## Concatenations of blocks -/

/-- A cut of a concatenation falls between two blocks, unless there are elements of `p` on
both sides of it: a block that is cut inside has more than one element, all of them in `p`. -/
theorem exists_append_of_flatMap {f : β → List α}
    (hf : ∀ y, (∀ x ∈ f y, p x = true) ∨ (f y).length ≤ 1) {s : List β} {a b : List α}
    (h : s.flatMap f = a ++ b)
    (hcut : (∀ x ∈ a.getLast?, p x = false) ∨ ∀ x ∈ b.head?, p x = false) :
    ∃ s₁ s₂, s = s₁ ++ s₂ ∧ s₁.flatMap f = a ∧ s₂.flatMap f = b := by
  induction s generalizing a with
  | nil =>
    obtain ⟨rfl, rfl⟩ := List.append_eq_nil_iff.mp h.symm
    exact ⟨[], [], rfl, rfl, rfl⟩
  | cons y s ih =>
    rw [List.flatMap_cons] at h
    obtain ⟨a', rfl, hrest⟩ | ⟨b', hy, rfl⟩ := List.append_eq_append_iff.mp h
    · have hcut' : (∀ x ∈ a'.getLast?, p x = false) ∨ ∀ x ∈ b.head?, p x = false := by
        refine hcut.imp_left fun hlast x hx => hlast x ?_
        simp_all [List.getLast?_append]
      obtain ⟨s₁, s₂, rfl, rfl, rfl⟩ := ih hrest hcut'
      exact ⟨y :: s₁, s₂, rfl, rfl, rfl⟩
    · cases b' with
      | nil =>
        rw [List.append_nil] at hy
        exact ⟨[y], s, rfl, by simpa using hy, rfl⟩
      | cons x b' =>
        cases ha : a.getLast? with
        | none =>
          obtain rfl := List.getLast?_eq_none_iff.mp ha
          rw [List.nil_append] at hy
          exact ⟨[], y :: s, rfl, rfl, by rw [List.flatMap_cons, hy]⟩
        | some z =>
          -- the block is cut between `z` and `x`
          exfalso
          have hz := List.mem_of_getLast? ha
          obtain hall | hone := hf y
          · rw [hy] at hall
            have hpz := hall z (List.mem_append_left _ hz)
            have hpx := hall x (by simp)
            obtain hlast | hhead := hcut
            · exact absurd (hlast z ha) (by simp [hpz])
            · exact absurd (hhead x rfl) (by simp [hpx])
          · have hpos := List.length_pos_of_mem hz
            rw [hy, List.length_append, List.length_cons] at hone
            omega

/-- The maximal runs of a concatenation are concatenations of consecutive blocks. -/
theorem MaximalRun.exists_blocks {f : β → List α}
    (hf : ∀ y, (∀ x ∈ f y, p x = true) ∨ (f y).length ≤ 1) {s : List β} {run : List α}
    (h : MaximalRun p (s.flatMap f) run) : ∃ t : List β, t.flatMap f = run ∧ ∀ y ∈ t, y ∈ s := by
  obtain ⟨pre, post, hs, -, hpre, hpost⟩ := h
  rw [List.append_assoc] at hs
  obtain ⟨s₁, s', rfl, -, hs'⟩ := exists_append_of_flatMap hf hs (.inl hpre)
  obtain ⟨t, s₂, rfl, ht, -⟩ := exists_append_of_flatMap hf hs' (.inr hpost)
  exact ⟨t, ht, fun y hy => by simp [hy]⟩

end Runs
