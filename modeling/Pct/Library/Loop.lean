import Pct.Library.Fault

/-!
# Loops and iterators

A `while` loop is a step function on its variables together with a measure that
every repetition decreases, so running it is total. `Loop.total` is the rule of
total correctness: an invariant that every step keeps, or that lets the step leave
with the postcondition. `Loop.Reaches` collects the states a run passes through. A
loop that searches a sequence for the first position with a property follows the rule
`Loop.first`.

An iterator is a `next` function on its state that consumes something with every
item. `collect` drives it to the end; `eq` and `cmp` compare two iterators item by
item and stop at the first difference.
-/

namespace Rust

/-- How one repetition ends: with new loop variables, or by leaving the loop. -/
inductive ControlFlow (σ ρ : Type) where
  | next (s : σ)
  | done (r : ρ)
  deriving DecidableEq, Repr

structure Loop (σ : Type) (ρ : Type) where
  /-- The guard and one execution of the body. -/
  step : σ → Exec (ControlFlow σ ρ)
  measure : σ → Nat
  decreases : ∀ s s', step s = .ok (.next s') → measure s' < measure s

namespace Loop

variable {σ : Type} {ρ : Type} (l : Loop σ ρ)

def run (s : σ) : Exec ρ :=
  match _h : l.step s with
  | .error e => .error e
  | .ok (.done r) => .ok r
  | .ok (.next s') => run s'
termination_by l.measure s
decreasing_by exact l.decreases s s' _h

theorem run_next {s s' : σ} (h : l.step s = .ok (.next s')) : l.run s = l.run s' := by
  rw [run]
  split <;> simp_all

theorem run_done {s : σ} {r : ρ} (h : l.step s = .ok (.done r)) : l.run s = .ok r := by
  rw [run]
  split <;> simp_all

/-- Total correctness: every step from the invariant either keeps it or leaves the
loop with the postcondition. The induction is on the measure. -/
theorem total (Inv : σ → Prop) (Post : ρ → Prop)
    (body : ∀ s, Inv s → (∃ s', l.step s = .ok (.next s') ∧ Inv s') ∨
      ∃ r, l.step s = .ok (.done r) ∧ Post r)
    (s : σ) (hs : Inv s) : ∃ r, l.run s = .ok r ∧ Post r := by
  induction hm : l.measure s using Nat.strongRecOn generalizing s with
  | _ m ih =>
    rcases body s hs with ⟨s', hstep, hs'⟩ | ⟨r, hstep, hr⟩
    · rw [l.run_next hstep]
      exact ih _ (hm ▸ l.decreases s s' hstep) s' hs' rfl
    · exact ⟨r, l.run_done hstep, hr⟩

/-- Any result of a run satisfies what leaving the loop establishes. -/
theorem sound (Inv : σ → Prop) (Post : ρ → Prop)
    (keeps : ∀ s s', Inv s → l.step s = .ok (.next s') → Inv s')
    (leaves : ∀ s r, Inv s → l.step s = .ok (.done r) → Post r)
    {s : σ} {r : ρ} (hs : Inv s) (h : l.run s = .ok r) : Post r := by
  induction hm : l.measure s using Nat.strongRecOn generalizing s with
  | _ m ih =>
    rw [run] at h
    split at h
    · cases h
    · rename_i r' hstep
      obtain rfl : r' = r := by simpa using h
      exact leaves s r' hs hstep
    · rename_i s' hstep
      exact ih _ (hm ▸ l.decreases s s' hstep) (keeps s s' hs hstep) h rfl

/-- The states a run from `s` passes through. -/
inductive Reaches (s : σ) : σ → Prop where
  | start : Reaches s s
  | step {t u : σ} : Reaches s t → l.step t = .ok (.next u) → Reaches s u

theorem Reaches.invariant {l : Loop σ ρ} (Inv : σ → Prop)
    (keeps : ∀ t u, Inv t → l.step t = .ok (.next u) → Inv u) {s t : σ} (hs : Inv s)
    (h : l.Reaches s t) : Inv t := by
  induction h with
  | start => exact hs
  | step _ hstep ih => exact keeps _ _ ih hstep

end Loop

/-- `j` is the first position from `i` on that satisfies `P`, or the end `n`. -/
structure IsFirst (P : Nat → Prop) (n i j : Nat) : Prop where
  le : i ≤ j
  le_end : j ≤ n
  before : ∀ k, i ≤ k → k < j → ¬ P k
  here : j < n → P j

namespace IsFirst

variable {P : Nat → Prop} {n i j : Nat}

theorem unique {j' : Nat} (h : IsFirst P n i j) (h' : IsFirst P n i j') : j = j' := by
  rcases Nat.lt_trichotomy j j' with hlt | heq | hlt
  · exact absurd (h.here (Nat.lt_of_lt_of_le hlt h'.le_end)) (h'.before j h.le hlt)
  · exact heq
  · exact absurd (h'.here (Nat.lt_of_lt_of_le hlt h.le_end)) (h.before j' h'.le hlt)

theorem skip {i' : Nat} (h : IsFirst P n i' j) (hi : i ≤ i')
    (hskip : ∀ k, i ≤ k → k < i' → ¬ P k) : IsFirst P n i j where
  le := Nat.le_trans hi h.le
  le_end := h.le_end
  before k hk hkj := (Nat.lt_or_ge k i').elim (hskip k hk) fun hk' => h.before k hk' hkj
  here := h.here

theorem of_here (hi : i < n) (h : P i) : IsFirst P n i i where
  le := Nat.le_refl _
  le_end := Nat.le_of_lt hi
  before _ hk hki := absurd hki (Nat.not_lt.mpr hk)
  here _ := h

theorem of_end : IsFirst P n n n where
  le := Nat.le_refl _
  le_end := Nat.le_refl _
  before _ hk hkn := absurd hkn (Nat.not_lt.mpr hk)
  here h := absurd h (Nat.lt_irrefl n)

end IsFirst

/-- A loop that searches: from the states of `Inv` it skips positions without `P`, or
leaves with the first one that has it. -/
theorem Loop.first (l : Loop Nat Nat) {P : Nat → Prop} (Inv : Nat → Prop) {n : Nat}
    (body : ∀ i ≤ n, Inv i →
      (∃ i', l.step i = .ok (.next i') ∧ i ≤ i' ∧ i' ≤ n ∧ Inv i' ∧
        ∀ k, i ≤ k → k < i' → ¬ P k) ∨
      ∃ j, l.step i = .ok (.done j) ∧ IsFirst P n i j)
    {i : Nat} (hi : i ≤ n) (hinv : Inv i) : ∃ j, l.run i = .ok j ∧ IsFirst P n i j := by
  refine l.total (fun s => i ≤ s ∧ s ≤ n ∧ Inv s ∧ ∀ k, i ≤ k → k < s → ¬ P k) (IsFirst P n i)
    ?_ i ⟨Nat.le_refl i, hi, hinv, fun k hk hki => absurd hki (Nat.not_lt.mpr hk)⟩
  rintro s ⟨his, hsn, hs, hskip⟩
  rcases body s hsn hs with ⟨s', hstep, hss', hs'n, hs', hskip'⟩ | ⟨j, hstep, hj⟩
  · refine .inl ⟨s', hstep, Nat.le_trans his hss', hs'n, hs', fun k hk hks' => ?_⟩
    exact (Nat.lt_or_ge k s).elim (hskip k hk) fun hks => hskip' k hks hks'
  · exact .inr ⟨j, hstep, hj.skip his hskip⟩

structure Iter (σ : Type) (α : Type) where
  next : σ → Exec (Option (α × σ))
  remaining : σ → Nat
  consumes : ∀ s a s', next s = .ok (some (a, s')) → remaining s' < remaining s

namespace Iter

variable {σ τ : Type} {α : Type}

/-- Drive the iterator to its end. -/
def collect (I : Iter σ α) (s : σ) : Exec (List α) :=
  match _h : I.next s with
  | .error e => .error e
  | .ok none => .ok []
  | .ok (some (a, s')) => (a :: ·) <$> collect I s'
termination_by I.remaining s
decreasing_by exact I.consumes s a s' _h

theorem collect_nil (I : Iter σ α) {s : σ} (h : I.next s = .ok none) : I.collect s = .ok [] := by
  rw [collect]
  split <;> simp_all

theorem collect_error (I : Iter σ α) {s : σ} {e : Fault} (h : I.next s = .error e) :
    I.collect s = .error e := by
  rw [collect]
  split <;> simp_all

theorem collect_cons (I : Iter σ α) {s s' : σ} {a : α} (h : I.next s = .ok (some (a, s'))) :
    I.collect s = (a :: ·) <$> I.collect s' := by
  rw [collect]
  split <;> simp_all

/-- What a completed iteration says about its first `next`. -/
theorem next_of_collect (I : Iter σ α) {s : σ} {xs : List α} (h : I.collect s = .ok xs) :
    (I.next s = .ok none ∧ xs = []) ∨
      ∃ a s' ys, I.next s = .ok (some (a, s')) ∧ I.collect s' = .ok ys ∧ xs = a :: ys := by
  rw [collect] at h
  split at h
  · cases h
  · exact .inl ⟨‹_›, by simpa using h.symm⟩
  · rename_i a s' hnext
    cases hys : I.collect s' with
    | error e => rw [hys] at h; cases h
    | ok ys =>
      rw [hys] at h
      exact .inr ⟨a, s', ys, hnext, hys, by simpa using h.symm⟩

theorem next_of_collect_nil (I : Iter σ α) {s : σ} (h : I.collect s = .ok []) :
    I.next s = .ok none := by
  obtain ⟨hs, -⟩ | ⟨_, _, _, _, _, h⟩ := I.next_of_collect h
  · exact hs
  · cases h

theorem next_of_collect_cons (I : Iter σ α) {s : σ} {x : α} {xs : List α}
    (h : I.collect s = .ok (x :: xs)) :
    ∃ s', I.next s = .ok (some (x, s')) ∧ I.collect s' = .ok xs := by
  obtain ⟨-, h⟩ | ⟨a, s', ys, hs, hxs, h⟩ := I.next_of_collect h
  · cases h
  · obtain ⟨rfl, rfl⟩ := List.cons.inj h
    exact ⟨s', hs, hxs⟩

/-- An iterator that never faults can be driven to its end. -/
theorem collect_total (I : Iter σ α) (h : ∀ s, ∃ o, I.next s = .ok o) (s : σ) :
    ∃ xs, I.collect s = .ok xs := by
  induction hm : I.remaining s using Nat.strongRecOn generalizing s with
  | _ m ih =>
    obtain ⟨o, ho⟩ := h s
    cases o with
    | none => exact ⟨[], I.collect_nil ho⟩
    | some p =>
      obtain ⟨xs, hxs⟩ := ih _ (hm ▸ I.consumes s p.1 p.2 ho) p.2 rfl
      exact ⟨p.1 :: xs, by rw [I.collect_cons ho, hxs, Exec.map_ok]⟩

/-- `Iterator::eq`. -/
def eq [DecidableEq α] (I : Iter σ α) (J : Iter τ α) (s : σ) (t : τ) : Exec Bool :=
  match _h : I.next s with
  | .error e => .error e
  | .ok none => do return (← J.next t).isNone
  | .ok (some (a, s')) =>
    match J.next t with
    | .error e => .error e
    | .ok none => .ok false
    | .ok (some (b, t')) => if a = b then eq I J s' t' else .ok false
termination_by I.remaining s
decreasing_by exact I.consumes s a s' _h

theorem eq_of_next_none [DecidableEq α] (I : Iter σ α) (J : Iter τ α) {s : σ} (t : τ)
    (h : I.next s = .ok none) : I.eq J s t = do return (← J.next t).isNone := by
  rw [eq]
  split <;> simp_all

theorem eq_of_next_some [DecidableEq α] (I : Iter σ α) (J : Iter τ α) {s s' : σ} {a : α} (t : τ)
    (h : I.next s = .ok (some (a, s'))) : I.eq J s t = match J.next t with
      | .error e => .error e
      | .ok none => .ok false
      | .ok (some (b, t')) => if a = b then I.eq J s' t' else .ok false := by
  rw [eq]
  split <;> simp_all

theorem eq_of_collect [DecidableEq α] (I : Iter σ α) (J : Iter τ α) {s : σ} {t : τ}
    {xs ys : List α} (hx : I.collect s = .ok xs) (hy : J.collect t = .ok ys) :
    I.eq J s t = .ok (decide (xs = ys)) := by
  induction xs generalizing s t ys with
  | nil =>
    rw [I.eq_of_next_none J t (I.next_of_collect_nil hx)]
    cases ys with
    | nil =>
      rw [J.next_of_collect_nil hy]
      rfl
    | cons y ys =>
      obtain ⟨t', ht, -⟩ := J.next_of_collect_cons hy
      rw [ht]
      rfl
  | cons x xs ih =>
    obtain ⟨s', hs, hxs⟩ := I.next_of_collect_cons hx
    rw [I.eq_of_next_some J t hs]
    cases ys with
    | nil =>
      rw [J.next_of_collect_nil hy]
      rfl
    | cons y ys =>
      obtain ⟨t', ht, hys⟩ := J.next_of_collect_cons hy
      rw [ht]
      by_cases hxy : x = y
      · simp [hxy, ih hxs hys]
      · simp [hxy]

/-- `Iterator::cmp`. -/
def cmp [Ord α] (I : Iter σ α) (J : Iter τ α) (s : σ) (t : τ) : Exec Ordering :=
  match _h : I.next s with
  | .error e => .error e
  | .ok none => do return if (← J.next t).isNone then .eq else .lt
  | .ok (some (a, s')) =>
    match J.next t with
    | .error e => .error e
    | .ok none => .ok .gt
    | .ok (some (b, t')) =>
      match compare a b with
      | .eq => cmp I J s' t'
      | o => .ok o
termination_by I.remaining s
decreasing_by exact I.consumes s a s' _h

theorem cmp_of_next_none [Ord α] (I : Iter σ α) (J : Iter τ α) {s : σ} (t : τ)
    (h : I.next s = .ok none) :
    I.cmp J s t = do return if (← J.next t).isNone then .eq else .lt := by
  rw [cmp]
  split <;> simp_all

theorem cmp_of_next_some [Ord α] (I : Iter σ α) (J : Iter τ α) {s s' : σ} {a : α} (t : τ)
    (h : I.next s = .ok (some (a, s'))) : I.cmp J s t = match J.next t with
      | .error e => .error e
      | .ok none => .ok .gt
      | .ok (some (b, t')) =>
        match compare a b with
        | .eq => I.cmp J s' t'
        | o => .ok o := by
  rw [cmp]
  split <;> simp_all

theorem cmp_of_collect [Ord α] (I : Iter σ α) (J : Iter τ α) {s : σ} {t : τ}
    {xs ys : List α} (hx : I.collect s = .ok xs) (hy : J.collect t = .ok ys) :
    I.cmp J s t = .ok (List.compareLex compare xs ys) := by
  induction xs generalizing s t ys with
  | nil =>
    rw [I.cmp_of_next_none J t (I.next_of_collect_nil hx)]
    cases ys with
    | nil =>
      rw [J.next_of_collect_nil hy]
      rfl
    | cons y ys =>
      obtain ⟨t', ht, -⟩ := J.next_of_collect_cons hy
      rw [ht]
      rfl
  | cons x xs ih =>
    obtain ⟨s', hs, hxs⟩ := I.next_of_collect_cons hx
    rw [I.cmp_of_next_some J t hs]
    cases ys with
    | nil =>
      rw [J.next_of_collect_nil hy]
      rfl
    | cons y ys =>
      obtain ⟨t', ht, hys⟩ := J.next_of_collect_cons hy
      rw [ht, List.compareLex_cons_cons]
      cases hc : compare x y with
      | eq => simp [hc, ih hxs hys]
      | lt => simp [hc]
      | gt => simp [hc]

/-- The iterator over the elements of a slice. -/
def ofSlice : Iter (List α) α where
  next
    | [] => .ok none
    | x :: xs => .ok (some (x, xs))
  remaining := List.length
  consumes s a s' h := by
    cases s with
    | nil => cases h
    | cons x xs =>
      obtain ⟨rfl, rfl⟩ : x = a ∧ xs = s' := by simpa using h
      simp

@[simp] theorem collect_ofSlice (xs : List α) : (ofSlice (α := α)).collect xs = .ok xs := by
  induction xs with
  | nil => exact collect_nil _ rfl
  | cons x xs ih =>
    have hnext : (ofSlice (α := α)).next (x :: xs) = .ok (some (x, xs)) := rfl
    rw [collect_cons _ hnext, ih, Exec.map_ok]

end Iter

end Rust
