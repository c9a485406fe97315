import Pct.Library.Fault

/-!
# Machines that answer requests

A machine changes its state with every request and gives a response, or it faults. A run
takes a list of requests and stops at the first fault. Three rules carry what is known of
one step to whole runs: a machine that simulates another one step by step gives the same
responses (`run_map`), what every step keeps holds in every state reached
(`run_invariant`), and a run without a step that can fault returns (`run_total`).
-/

namespace Rust

structure Machine (σ ι ω : Type) where
  step : σ → ι → Exec (ω × σ)

namespace Machine

variable {σ τ ι ω : Type} (M : Machine σ ι ω)

/-- The responses to a list of requests, and the state behind them. -/
def run (s : σ) : List ι → Exec (List ω × σ)
  | [] => .ok ([], s)
  | i :: is => do
    let (o, t) ← M.step s i
    let (os, u) ← run t is
    return (o :: os, u)

@[simp] theorem run_nil (s : σ) : M.run s [] = .ok ([], s) := rfl

theorem run_cons_eq_ok {s u : σ} {i : ι} {is : List ι} {os : List ω} :
    M.run s (i :: is) = .ok (os, u) ↔
      ∃ o t os', M.step s i = .ok (o, t) ∧ M.run t is = .ok (os', u) ∧ os = o :: os' := by
  simp only [run, Exec.bind_eq_ok, Prod.exists, Exec.pure_eq, Except.ok.injEq, Prod.mk.injEq]
  constructor
  · rintro ⟨o, t, hstep, os', u', hrun, rfl, rfl⟩
    exact ⟨o, t, os', hstep, hrun, rfl⟩
  · rintro ⟨o, t, os', hstep, hrun, rfl⟩
    exact ⟨o, t, hstep, os', u, hrun, rfl, rfl⟩

theorem run_cons_eq_error {s : σ} {i : ι} {is : List ι} {e : Fault} :
    M.run s (i :: is) = .error e ↔
      M.step s i = .error e ∨ ∃ o t, M.step s i = .ok (o, t) ∧ M.run t is = .error e := by
  rw [run]
  cases hstep : M.step s i with
  | error e' => simp
  | ok r => cases hrun : M.run r.2 is <;> simp [hrun, Prod.ext_iff]

/-- A run faults where one of its requests does, behind a run that does not. -/
theorem run_eq_error {s : σ} {is : List ι} {e : Fault} :
    M.run s is = .error e ↔ ∃ pre i post os t, is = pre ++ i :: post ∧
      M.run s pre = .ok (os, t) ∧ M.step t i = .error e := by
  constructor
  · intro h
    induction is generalizing s with
    | nil => cases h
    | cons i is ih =>
      rcases M.run_cons_eq_error.mp h with hstep | ⟨o, t, hstep, hrun⟩
      · exact ⟨[], i, is, [], s, rfl, rfl, hstep⟩
      · obtain ⟨pre, j, post, os, u, rfl, hpre, hfault⟩ := ih hrun
        exact ⟨i :: pre, j, post, o :: os, u, rfl,
          M.run_cons_eq_ok.mpr ⟨o, t, os, hstep, hpre, rfl⟩, hfault⟩
  · rintro ⟨pre, i, post, os, t, rfl, hpre, hfault⟩
    induction pre generalizing s os with
    | nil =>
      obtain ⟨-, rfl⟩ : [] = os ∧ s = t := by simpa using hpre
      exact M.run_cons_eq_error.mpr (.inl hfault)
    | cons j pre ih =>
      obtain ⟨o, u, os', hstep, hrest, -⟩ := M.run_cons_eq_ok.mp hpre
      exact M.run_cons_eq_error.mpr (.inr ⟨o, u, hstep, ih os' hrest⟩)

/-- What every step keeps, given the requests so far, holds behind every run. -/
theorem run_invariant (Inv : List ι → σ → Prop) {is : List ι}
    (keeps : ∀ done s, ∀ i ∈ is, ∀ o t, Inv done s → M.step s i = .ok (o, t) →
      Inv (done ++ [i]) t)
    {done : List ι} {s t : σ} {os : List ω} (hs : Inv done s) (h : M.run s is = .ok (os, t)) :
    Inv (done ++ is) t := by
  induction is generalizing done s os with
  | nil =>
    obtain ⟨-, rfl⟩ : [] = os ∧ s = t := by simpa using h
    simpa using hs
  | cons i is ih =>
    obtain ⟨o, u, os', hstep, hrun, -⟩ := M.run_cons_eq_ok.mp h
    have hinv := ih (fun done s j hj => keeps done s j (List.mem_cons_of_mem _ hj))
      (keeps done s i (by simp) o u hs hstep) hrun
    simpa using hinv

/-- A run whose requests are all answered from the states of an invariant returns. -/
theorem run_total (Inv : σ → Prop) {is : List ι}
    (answers : ∀ s, ∀ i ∈ is, Inv s → ∃ o t, M.step s i = .ok (o, t) ∧ Inv t)
    {s : σ} (hs : Inv s) : ∃ os t, M.run s is = .ok (os, t) ∧ Inv t := by
  induction is generalizing s with
  | nil => exact ⟨[], s, rfl, hs⟩
  | cons i is ih =>
    obtain ⟨o, t, hstep, ht⟩ := answers s i (by simp) hs
    obtain ⟨os, u, hrun, hu⟩ := ih (fun s j hj => answers s j (List.mem_cons_of_mem _ hj)) ht
    exact ⟨o :: os, u, M.run_cons_eq_ok.mpr ⟨o, t, os, hstep, hrun, rfl⟩, hu⟩

/-- A machine that follows another one along `f`, for the requests of `is`, answers them
alike and faults where the other one does. -/
theorem run_map (N : Machine τ ι ω) (f : τ → σ) {is : List ι}
    (follows : ∀ t, ∀ i ∈ is, M.step (f t) i = Prod.map id f <$> N.step t i) (t : τ) :
    M.run (f t) is = Prod.map id f <$> N.run t is := by
  induction is generalizing t with
  | nil => rfl
  | cons i is ih =>
    rw [run, run, follows t i (by simp)]
    cases N.step t i with
    | error e => rfl
    | ok r =>
      have hrest := ih (fun t j hj => follows t j (List.mem_cons_of_mem _ hj)) r.2
      simp only [Exec.map_ok, Exec.ok_bind, Prod.map_fst, Prod.map_snd, id_eq, hrest]
      cases N.run r.2 is <;> rfl

end Machine

end Rust
