import Pct.Library.Loop

/-!
# Iterations that do not come to their end

An iterator can be left after some calls, and a call can fault. `Yields` describes some
successive calls, `Stops` all of them, up to the end or to a fault. A comparison of two
iterators takes one item of each in turn, so it is blocked where one of them faults before
the items differ, and behind that a fault has no influence.
-/

namespace Rust

namespace Iter

variable {σ τ α : Type}

/-- Successive calls from one state to another and what they return. -/
inductive Yields (I : Iter σ α) : σ → List α → σ → Prop where
  | nil (s : σ) : Yields I s [] s
  | cons {s t u : σ} {a : α} {as : List α} (h : I.next s = .ok (some (a, t)))
      (hrest : Yields I t as u) : Yields I s (a :: as) u

/-- What every call keeps, given the items so far, holds wherever calls lead. -/
theorem Yields.invariant {I : Iter σ α} (Inv : List α → σ → Prop)
    (keeps : ∀ xs s a t, Inv xs s → I.next s = .ok (some (a, t)) → Inv (xs ++ [a]) t)
    {xs ys : List α} {s t : σ} (hs : Inv xs s) (h : I.Yields s ys t) : Inv (xs ++ ys) t := by
  induction h generalizing xs with
  | nil => simpa using hs
  | cons hnext _ ih => simpa using ih (keeps _ _ _ _ hs hnext)

/-- All calls up to the end of the iteration, or up to a fault. -/
inductive Stops (I : Iter σ α) : σ → List α → Bool → Prop where
  | done {s : σ} (h : I.next s = .ok none) : Stops I s [] false
  | fault {s : σ} {e : Fault} (h : I.next s = .error e) : Stops I s [] true
  | cons {s t : σ} {a : α} {as : List α} {faults : Bool} (h : I.next s = .ok (some (a, t)))
      (hrest : Stops I t as faults) : Stops I s (a :: as) faults

theorem Stops.collect_error {I : Iter σ α} {s : σ} {xs : List α} (h : I.Stops s xs true) :
    ∃ e, I.collect s = .error e := by
  generalize hfaults : true = faults at h
  induction h with
  | done => cases hfaults
  | fault h => exact ⟨_, I.collect_error h⟩
  | cons h _ ih =>
    obtain ⟨e, he⟩ := ih hfaults
    exact ⟨e, by rw [I.collect_cons h, he]; rfl⟩

theorem Stops.of_collect {I : Iter σ α} {s : σ} {xs : List α} (h : I.collect s = .ok xs) :
    I.Stops s xs false := by
  induction xs generalizing s with
  | nil => exact .done (I.next_of_collect_nil h)
  | cons x xs ih =>
    obtain ⟨t, hnext, ht⟩ := I.next_of_collect_cons h
    exact .cons hnext (ih ht)

/-- One of two iterations faults before their items differ. -/
def Blocked (xs ys : List α) (faults faults' : Bool) : Prop :=
  (faults = true ∧ xs <+: ys) ∨ (faults' = true ∧ ys <+: xs)

theorem blocked_cons {x y : α} {xs ys : List α} {faults faults' : Bool} :
    Blocked (x :: xs) (y :: ys) faults faults' ↔ x = y ∧ Blocked xs ys faults faults' := by
  simp only [Blocked, List.cons_prefix_cons, eq_comm (a := y)]
  tauto

theorem eq_error_left [DecidableEq α] (I : Iter σ α) (J : Iter τ α) {s : σ} (t : τ) {e : Fault}
    (h : I.next s = .error e) : I.eq J s t = .error e := by
  rw [eq]
  split <;> simp_all

theorem cmp_error_left [Ord α] (I : Iter σ α) (J : Iter τ α) {s : σ} (t : τ) {e : Fault}
    (h : I.next s = .error e) : I.cmp J s t = .error e := by
  rw [cmp]
  split <;> simp_all

variable {I : Iter σ α} {J : Iter τ α} {s : σ} {t : τ} {xs ys : List α} {faults faults' : Bool}

/-- Equality of two iterators is that of their items, where it is not blocked. -/
theorem Stops.eq [DecidableEq α] (hx : I.Stops s xs faults)
    (hy : J.Stops t ys faults') :
    (Blocked xs ys faults faults' → ∃ e, I.eq J s t = .error e) ∧
      (¬ Blocked xs ys faults faults' → I.eq J s t = .ok (decide (xs = ys))) := by
  induction hx generalizing t ys with
  | done h =>
    rw [I.eq_of_next_none J t h]
    cases hy with
    | done h' => simp [h', Blocked]
    | fault h' => simp [h', Blocked]
    | cons h' => simp [h', Blocked]
  | fault h =>
    rw [I.eq_error_left J t h]
    simp [Blocked]
  | @cons s _ x _ _ h _ ih =>
    rw [I.eq_of_next_some J t h]
    cases hy with
    | done h' => simp [h', Blocked]
    | fault h' => simp [h', Blocked]
    | @cons _ _ y _ _ h' hys =>
      rw [h', blocked_cons]
      by_cases hxy : x = y
      · simpa [hxy] using ih hys
      · simp [hxy]

/-- The same for the order. -/
theorem Stops.cmp [Ord α] [Std.LawfulEqOrd α] (hx : I.Stops s xs faults)
    (hy : J.Stops t ys faults') :
    (Blocked xs ys faults faults' → ∃ e, I.cmp J s t = .error e) ∧
      (¬ Blocked xs ys faults faults' → I.cmp J s t = .ok (List.compareLex compare xs ys)) := by
  induction hx generalizing t ys with
  | done h =>
    rw [I.cmp_of_next_none J t h]
    cases hy with
    | done h' => simp [h', Blocked, List.compareLex_nil_nil]
    | fault h' => simp [h', Blocked]
    | cons h' => simp [h', Blocked, List.compareLex_nil_cons]
  | fault h =>
    rw [I.cmp_error_left J t h]
    simp [Blocked]
  | @cons s _ x _ _ h _ ih =>
    rw [I.cmp_of_next_some J t h]
    cases hy with
    | done h' => simp [h', Blocked, List.compareLex_cons_nil]
    | fault h' => simp [h', Blocked]
    | @cons _ _ y _ _ h' hys =>
      rw [h', blocked_cons, List.compareLex_cons_cons]
      by_cases hxy : x = y
      · simpa [hxy] using ih hys
      · cases hc : compare x y with
        | eq => exact absurd (Std.LawfulEqOrd.eq_of_compare hc) hxy
        | lt => simp [hxy, hc]
        | gt => simp [hxy, hc]

end Iter

end Rust
