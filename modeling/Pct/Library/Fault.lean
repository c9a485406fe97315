import Mathlib.Data.List.Basic

/-!
# Checked computations

A computation of a systems program either returns a value or faults. The faults
are the panics of the safe operations (an index or a slice range outside its
sequence, an `unwrap` of nothing, a failed debug assertion) and the one undefined
behaviour of interest here: reading bytes as text although they are not
well-formed UTF-8. A theorem that a computation equals `.ok v` therefore says
that no operation in it can fail.
-/

namespace Rust

inductive Fault where
  | indexOutOfBounds
  | sliceOutOfRange
  | unwrapFailed
  | debugAssertion
  | invalidUtf8
  deriving DecidableEq, Repr

abbrev Exec (α : Type) := Except Fault α

variable {α β : Type}

instance [DecidableEq α] : DecidableEq (Exec α)
  | .ok x, .ok y => decidable_of_iff (x = y) (by simp)
  | .error x, .error y => decidable_of_iff (x = y) (by simp)
  | .ok _, .error _ => isFalse (by simp)
  | .error _, .ok _ => isFalse (by simp)

@[simp] theorem Exec.ok_bind (a : α) (f : α → Exec β) : (Except.ok a >>= f) = f a := rfl

@[simp] theorem Exec.error_bind (e : Fault) (f : α → Exec β) :
    ((Except.error e : Exec α) >>= f) = .error e := rfl

@[simp] theorem Exec.pure_eq (a : α) : (pure a : Exec α) = .ok a := rfl

@[simp] theorem Exec.map_ok (f : α → β) (a : α) : f <$> (Except.ok a : Exec α) = .ok (f a) := rfl

/-- The computation does not fault. -/
def Exec.Returns (x : Exec α) : Prop := ∃ a, x = .ok a

theorem Exec.not_returns {x : Exec α} (h : ∃ e, x = .error e) : ¬ Returns x := by
  rintro ⟨a, rfl⟩
  obtain ⟨e, h⟩ := h
  cases h

/-- A computation that faults under a condition, and else has a value, returns no other. -/
theorem Exec.returns_iff {x : Exec α} {P : Prop} {v : α} (hbad : P → ∃ e, x = .error e)
    (hok : ¬ P → x = .ok v) : (Returns x ↔ ¬ P) ∧ ∀ r, x = .ok r → r = v := by
  by_cases hP : P
  · obtain ⟨e, rfl⟩ := hbad hP
    exact ⟨iff_of_false (not_returns ⟨e, rfl⟩) (not_not.mpr hP), nofun⟩
  · obtain rfl := hok hP
    exact ⟨iff_of_true ⟨v, rfl⟩ hP, fun r h => (Except.ok.inj h).symm⟩

@[simp] theorem Exec.returns_bind_pure {x : Exec α} {f : α → β} :
    Returns (x >>= fun a => (pure (f a) : Exec β)) ↔ Returns x := by
  cases x <;> simp [Returns]

/-- A sequence returns exactly when both of its parts do. -/
theorem Exec.bind_eq_ok {x : Exec α} {f : α → Exec β} {b : β} :
    (x >>= f) = .ok b ↔ ∃ a, x = .ok a ∧ f a = .ok b := by
  cases x <;> simp

/-- A sequence whose second part cannot fault does where the first one does. -/
theorem Exec.bind_pure_eq_error {x : Exec α} {f : α → β} {e : Fault} :
    (x >>= fun a => (pure (f a) : Exec β)) = .error e ↔ x = .error e := by
  cases x <;> simp

/-- `xs[i]` of a slice. -/
def index (xs : List α) (i : Nat) : Exec α :=
  match xs[i]? with
  | some x => .ok x
  | none => .error .indexOutOfBounds

/-- `table[i]` of a fixed-size array. -/
def lookup {n : Nat} (table : Vector α n) (i : Nat) : Exec α :=
  if h : i < n then .ok (table.get ⟨i, h⟩) else .error .indexOutOfBounds

/-- `&xs[lo..hi]`. -/
def slice (xs : List α) (lo hi : Nat) : Exec (List α) :=
  if lo ≤ hi ∧ hi ≤ xs.length then .ok ((xs.drop lo).take (hi - lo))
  else .error .sliceOutOfRange

/-- `&xs[lo..]`. -/
def sliceFrom (xs : List α) (lo : Nat) : Exec (List α) :=
  if lo ≤ xs.length then .ok (xs.drop lo) else .error .sliceOutOfRange

/-- `Option::unwrap`. -/
def unwrap : Option α → Exec α
  | some x => .ok x
  | none => .error .unwrapFailed

/-- `Result::unwrap`. -/
def unwrapOk {ε : Type} : Except ε α → Exec α
  | .ok x => .ok x
  | .error _ => .error .unwrapFailed

/-- `debug_assert!`, in a build that checks it. -/
def debugAssert (c : Bool) : Exec Unit :=
  if c then .ok () else .error .debugAssertion

theorem index_eq_ok {xs : List α} {i : Nat} {x : α} : index xs i = .ok x ↔ xs[i]? = some x := by
  unfold index
  split <;> simp_all

theorem index_eq_error {xs : List α} {i : Nat} (h : xs.length ≤ i) :
    index xs i = .error .indexOutOfBounds := by
  simp [index, List.getElem?_eq_none h]

/-- A slice is addressed by the part in front of it. -/
theorem index_append (pre post : List α) (x : α) {i : Nat} (hi : i = pre.length) :
    index (pre ++ x :: post) i = .ok x := by
  subst hi
  simp [index]

theorem slice_append (pre mid post : List α) {lo hi : Nat} (hlo : lo = pre.length)
    (hhi : hi = pre.length + mid.length) : slice (pre ++ mid ++ post) lo hi = .ok mid := by
  subst hlo hhi
  simp [slice]

theorem lookup_eq_ok {n : Nat} (table : Vector α n) {i : Nat} (h : i < n) :
    lookup table i = .ok (table.get ⟨i, h⟩) := by
  simp [lookup, h]

theorem get_ofFn {n : Nat} (f : Fin n → α) (i : Fin n) : (Vector.ofFn f).get i = f i := by
  simp only [Vector.get, Vector.toArray_ofFn, Array.getElem_ofFn]
  rfl

@[simp] theorem unwrap_some (x : α) : unwrap (some x) = .ok x := rfl

@[simp] theorem unwrapOk_ok {ε : Type} (x : α) : unwrapOk (.ok x : Except ε α) = .ok x := rfl

theorem mapM_unwrapOk {ε : Type} (xs : List α) :
    (xs.map (.ok : α → Except ε α)).mapM unwrapOk = .ok xs := by
  induction xs with
  | nil => rfl
  | cons x xs ih => simp [List.mapM_cons, ih]

@[simp] theorem debugAssert_true : debugAssert true = .ok () := rfl

end Rust
