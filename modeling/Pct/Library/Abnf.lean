import Mathlib.Computability.Language

/-!
# Grammar rules as languages

The rules of an ABNF grammar without recursion are languages: `+` is alternation, `*` is
concatenation and `∗` is repetition. `lit` and `range` are the terminals. Whether a rule
admits a single character is decided alternative by alternative.
-/

namespace Abnf

open scoped Computability

/-! ## Terminals -/

/-- `"c"` -/
def lit (c : Char) : Language Char := {[c]}

/-- `%xlo-hi` -/
def range (lo hi : ℕ) : Language Char := {w | ∃ c : Char, w = [c] ∧ lo ≤ c.toNat ∧ c.toNat ≤ hi}

@[simp] theorem singleton_mem_lit {c d : Char} : [c] ∈ lit d ↔ c = d :=
  Set.mem_singleton_iff.trans List.singleton_inj

@[simp] theorem singleton_mem_range {c : Char} {lo hi : ℕ} :
    [c] ∈ range lo hi ↔ lo ≤ c.toNat ∧ c.toNat ≤ hi := by
  constructor
  · rintro ⟨d, hd, h⟩
    rwa [List.singleton_inj.mp hd]
  · intro h
    exact ⟨c, rfl, h⟩

variable {α β : Type} {L : Language α}

/-- `simp` writes alternation as a supremum. -/
@[simp] theorem mem_sup {M : Language α} {w : List α} : w ∈ L ⊔ M ↔ w ∈ L ∨ w ∈ M :=
  Iff.rfl

/-! ## Repetition -/

theorem mem_kstar_of_mem {w : List α} (h : w ∈ L) : w ∈ L∗ :=
  Language.mem_kstar.mpr ⟨[w], by simp, by simpa using h⟩

/-- A repetition that is one letter long repeats once. -/
@[simp] theorem singleton_mem_kstar {a : α} : [a] ∈ L∗ ↔ [a] ∈ L := by
  refine ⟨fun h => ?_, mem_kstar_of_mem⟩
  obtain ⟨ws, hws, hmem⟩ := Language.mem_kstar_iff_exists_nonempty.mp h
  cases ws with
  | nil => cases hws
  | cons w ws =>
    obtain ⟨hw, hne⟩ := hmem w (List.mem_cons_self ..)
    rw [List.flatten_cons, List.singleton_eq_append_iff] at hws
    obtain ⟨hnil, -⟩ | ⟨hone, -⟩ := hws
    · exact absurd hnil hne
    · rwa [← hone]

theorem append_mem_kstar {v w : List α} (hv : v ∈ L∗) (hw : w ∈ L∗) : v ++ w ∈ L∗ := by
  rw [← kstar_mul_kstar L]
  exact Language.mem_mul.mpr ⟨v, hv, w, hw, rfl⟩

theorem flatMap_mem_kstar {l : List β} {f : β → List α} (h : ∀ x ∈ l, f x ∈ L∗) :
    l.flatMap f ∈ L∗ := by
  induction l with
  | nil => exact Language.nil_mem_kstar L
  | cons x l ih =>
    rw [List.forall_mem_cons] at h
    exact append_mem_kstar h.1 (ih h.2)

end Abnf
