import Pct.Text.Token

/-!
# Arbitrary bytes as segments

Bytes that come from outside need not be percent-encoded. They still fall into segments in
one way only: tokens, a `%` with two bytes behind it that are not both hex digits, and at
the end a `%` with less than two bytes behind it. `Sequence` says that the last kind stands
at the end, and `segments` computes the only such sequence.
-/

namespace Pct

inductive Segment where
  | token (t : Token)
  | malformed (a b : UInt8) (h : ¬ (isHexDigit a = true ∧ isHexDigit b = true))
  | cut (rest : List UInt8) (h : rest.length < 2)
  deriving DecidableEq

namespace Segment

def spelling : Segment → List UInt8
  | token t => t.spelling
  | malformed a b _ => [percent, a, b]
  | cut rest _ => percent :: rest

/-- What the untrusted iterator makes of a segment. -/
def item {ε : Type} : Segment → Except (ByteError ε) UInt8
  | token t => .ok t.octet
  | malformed a b _ => .error (.invalidByte (if isHexDigit a then b else a))
  | cut _ _ => .error .incompleteEncoding

/-- Segments that can follow each other: nothing follows a cut. -/
def Sequence : List Segment → Prop
  | [] => True
  | [_] => True
  | cut _ _ :: _ :: _ => False
  | _ :: s :: ss => Sequence (s :: ss)

end Segment

/-- The bytes of a sequence of segments. -/
def assemble (ss : List Segment) : List UInt8 := ss.flatMap Segment.spelling

@[simp] theorem assemble_cons (s : Segment) (ss : List Segment) :
    assemble (s :: ss) = s.spelling ++ assemble ss := rfl

/-- The segments of a byte string. -/
def segments : List UInt8 → List Segment
  | [] => []
  | b :: rest =>
    if hb : b = percent then
      match rest with
      | a :: c :: rest =>
        if h : isHexDigit a = true ∧ isHexDigit c = true then
          .token (.ofDigits h) :: segments rest
        else .malformed a c h :: segments rest
      | [a] => [.cut [a] Nat.one_lt_two]
      | [] => [.cut [] Nat.two_pos]
    else .token (.literal ⟨b, hb⟩) :: segments rest

theorem Segment.Sequence.tail {s : Segment} {ss : List Segment} (h : Sequence (s :: ss)) :
    Sequence ss := by
  cases ss with
  | nil => trivial
  | cons s' ss =>
    cases s with
    | cut => exact h.elim
    | token t => exact h
    | malformed a b hab => exact h

theorem Segment.Sequence.cons {s : Segment} {ss : List Segment} (h : Sequence ss)
    (hs : ∀ rest hrest, s ≠ cut rest hrest) : Sequence (s :: ss) := by
  cases ss with
  | nil => trivial
  | cons s' ss =>
    cases s with
    | cut rest hrest => exact (hs rest hrest rfl).elim
    | token t => exact h
    | malformed a b hab => exact h

theorem sequence_segments (bs : List UInt8) : Segment.Sequence (segments bs) := by
  fun_induction segments bs with
  | case1 => trivial
  | case2 a c rest h ih => exact ih.cons (by simp)
  | case3 a c rest h ih => exact ih.cons (by simp)
  | case4 => trivial
  | case5 => trivial
  | case6 b rest hb ih => exact ih.cons (by simp)

@[simp] theorem assemble_segments (bs : List UInt8) : assemble (segments bs) = bs := by
  fun_induction segments bs with
  | case1 => rfl
  | case2 a c rest h ih => simp [Segment.spelling, ih]
  | case3 a c rest h ih => simp [Segment.spelling, ih]
  | case4 => rfl
  | case5 => rfl
  | case6 b rest hb ih => simp [Segment.spelling, ih]

/-- There is no other way to take a byte string apart. -/
theorem segments_assemble {ss : List Segment} (h : Segment.Sequence ss) :
    segments (assemble ss) = ss := by
  induction ss with
  | nil => rfl
  | cons s ss ih =>
    have ih := ih h.tail
    cases s with
    | token t =>
      cases t with
      | literal b =>
        rw [assemble_cons, Segment.spelling, Token.spelling_literal, List.singleton_append,
          segments.eq_def]
        simp [b.ne_percent, ih]
      | triplet hi lo => simp [Segment.spelling, segments, hi.isHex, lo.isHex, ih]
    | malformed a b hab => simp [Segment.spelling, segments, hab, ih]
    | cut rest hrest =>
      cases ss with
      | cons s' ss => exact h.elim
      | nil =>
        rcases rest with _ | ⟨a, _ | ⟨b, rest⟩⟩
        · rfl
        · rfl
        · exact absurd hrest (by simp)

/-- The segments of a percent-encoded text are its tokens. -/
theorem segments_eq_map_token {bs : List UInt8} {ts : List Token} :
    segments bs = ts.map .token ↔ spell ts = bs := by
  have hassemble (ts : List Token) : assemble (ts.map .token) = spell ts := by
    simp [assemble, spell, List.flatMap_map, Segment.spelling]
  constructor
  · intro h
    rw [← hassemble, ← h, assemble_segments]
  · rintro rfl
    rw [← hassemble]
    apply segments_assemble
    induction ts with
    | nil => trivial
    | cons t ts ih => exact ih.cons (by simp)

end Pct
