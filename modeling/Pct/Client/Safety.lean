import Pct.Client.Refinement
import Pct.Refinement.Blocks

/-!
# Sessions that cannot go wrong

Whatever the encoders, `encode_bytes` writes well-formed UTF-8. So the values a session
holds are valid unless a shuffle has leaked a `%` into them, and a valid one is UTF-8 itself
unless the client has passed its bytes in (`Keeps`). For every fault there is one of the two
to blame. Without leaks a session faults exactly where it reads a split raw text; a client
that passes texts only never gets there.
-/

namespace Pct

open Rust

variable {ε : Type} {B : Build ε}

/-! ## The raw output of `encode_bytes` -/

/-- `encode_bytes` returns UTF-8 for any encoder, consistent or not. -/
theorem exists_encodeBytes (B : Build ε) (encoder : Encoder) (src : String) :
    ∃ p, PctString.encodeBytes B src encoder = .ok p ∧ Utf8.WellFormed p.raw := by
  obtain ⟨blocks, hblocks, hx⟩ := exists_blocks B encoder src
  exact ⟨_, hx, wellFormed_blocks hblocks⟩

namespace Client

/-! ## What a request can do to the pool -/

/-- The shuffle of the encoder leaks a `%` of the source in this build. -/
def Request.Leaks (B : Build ε) : Request → Prop
  | .make (.encodeBytes src encoder) => B.simdFeature = true ∧ encoder.asciiKeepTable ≠ none ∧
      ∃ ls, encoder.asciiKeepLoShuf = some ls ∧ LeaksPercent ls (Utf8.encode src.toList)
  | _ => False

/-- The bytes that a request passes in without a promise that they are text. -/
def Request.rawInput : Request → Option (List UInt8)
  | .make (.newSlice bytes) => some bytes
  | .make (.newOwned bytes) => some bytes
  | _ => none

/-- The request reads the raw text of the value `a`. -/
def Request.Reads (pool : List Entry) (a : Entry) : Request → Prop
  | .view i .asStr => pool[i]? = some a
  | .intoString i => pool[i]? = some a ∧ ∃ p, a = .owned p
  | _ => False

/-- The request looks at the value `a`. -/
def Request.Touches (pool : List Entry) (a : Entry) : Request → Prop
  | .intoString i | .view i _ => pool[i]? = some a
  | .compare i j _ => pool[i]? = some a ∨ pool[j]? = some a
  | _ => False

theorem Request.Touches.mem {pool : List Entry} {a : Entry} {r : Request}
    (h : r.Touches pool a) : a ∈ pool := by
  cases r with
  | intoString i => exact List.mem_of_getElem? h
  | view i v => exact List.mem_of_getElem? h
  | compare i j c => exact h.elim List.mem_of_getElem? List.mem_of_getElem?
  | _ => exact h.elim

theorem Request.Reads.touches {pool : List Entry} {a : Entry} {r : Request}
    (h : r.Reads pool a) : r.Touches pool a := by
  cases r with
  | intoString i => exact h.1
  | view i v =>
    cases v with
    | asStr => exact h
    | _ => exact h.elim
  | _ => exact h.elim

/-- What a step does to the pool: nothing, or it takes a value out, copies one, or adds the
one it makes. -/
theorem step_cases {pool pool' : List Entry} {r : Request} {o : Response}
    (h : step B pool r = .ok (o, pool')) :
    pool' = pool ∨ (∃ i, pool' = pool.eraseIdx i) ∨
      (∃ a ∈ pool, ∃ b, b.pctStr = a.pctStr ∧ pool' = pool ++ [b]) ∨
      ∃ m made, r = .make m ∧ m.make B = .ok (o, made) ∧ pool' = pool ++ made.toList := by
  cases r with
  | make m =>
    obtain ⟨⟨_, made⟩, hmake, h⟩ := Exec.bind_eq_ok.mp h
    cases h
    exact .inr (.inr (.inr ⟨m, made, rfl, hmake, rfl⟩))
  | toOwned i =>
    simp only [step] at h
    split at h <;> cases h
    · rename_i b hb
      exact .inr (.inr (.inl ⟨b, List.mem_of_getElem? hb, .owned b.pctStr.toOwned, rfl, rfl⟩))
    · exact .inl rfl
  | asPctStr i =>
    simp only [step] at h
    split at h <;> cases h
    · rename_i b hb
      exact .inr (.inr (.inl ⟨b, List.mem_of_getElem? hb, .slice b.pctStr, rfl, rfl⟩))
    · exact .inl rfl
  | intoString i =>
    simp only [step] at h
    split at h
    · obtain ⟨_, -, h⟩ := Exec.bind_eq_ok.mp h
      cases h
      exact .inr (.inl ⟨i, rfl⟩)
    · cases h
      exact .inl rfl
  | intoBytes i =>
    simp only [step] at h
    split at h <;> cases h
    · exact .inr (.inl ⟨i, rfl⟩)
    · exact .inl rfl
  | view i v =>
    simp only [step] at h
    split at h
    · obtain ⟨_, -, h⟩ := Exec.bind_eq_ok.mp h
      cases h
      exact .inl rfl
    · cases h
      exact .inl rfl
  | compare i j c =>
    simp only [step] at h
    split at h
    · obtain ⟨_, -, h⟩ := Exec.bind_eq_ok.mp h
      cases h
      exact .inl rfl
    · cases h
      exact .inl rfl

/-! ## Valid pools -/

/-- A valid value is a text. -/
theorem exists_holding (hB : B.Lawful) {a : Entry} (ha : a.pctStr.Valid B) :
    ∃ h : Holding, a = Entry.of h := by
  obtain ⟨ts, hts, hwf⟩ := ha.exists_tokens hB
  cases a with
  | slice p => exact ⟨⟨.slice, ts, hwf⟩, congrArg Entry.slice hts⟩
  | owned p =>
    obtain ⟨raw⟩ := p
    obtain rfl : raw = spell ts := congrArg PctStr.raw hts
    exact ⟨⟨.owned, ts, hwf⟩, rfl⟩

/-- Reading the raw text of a valid value is undefined exactly when it splits a character. -/
theorem asStr_eq_error (hB : B.Lawful) {p : PctStr} (hp : p.Valid B) {e : Fault} :
    p.asStr = .error e ↔ e = .invalidUtf8 ∧ SplitsCharacter p.raw := by
  obtain ⟨ts, rfl, hwf⟩ := hp.exists_tokens hB
  have hsplits := Text.isSome_readable ⟨ts, hwf⟩
  change (PctStr.mk (Text.raw ⟨ts, hwf⟩)).asStr = _ ↔ _ ∧ SplitsCharacter (Text.raw ⟨ts, hwf⟩)
  rw [asStr_raw, Meaning.read]
  cases hread : Text.readable ⟨ts, hwf⟩ with
  | none => simp_all [eq_comm]
  | some s => simp_all

/-- No other call on a valid value faults. -/
theorem view_eq_error (hB : B.Lawful) {a : Entry} (ha : a.pctStr.Valid B) {v : View} {e : Fault} :
    a.view B v = .error e ↔ v = .asStr ∧ a.pctStr.asStr = .error e := by
  obtain ⟨h, rfl⟩ := exists_holding hB ha
  cases v with
  | asStr =>
    rw [Entry.view]
    cases (Entry.of h).pctStr.asStr <;> simp
  | _ => simp [view_of hB, Meaning.view]

theorem valid_of (hB : B.Lawful) (h : Holding) : (Entry.of h).pctStr.Valid B := by
  rw [Entry.pctStr_of, hB.valid_iff]
  exact h.text.accepted_raw

/-- What a validating constructor accepts is its input. -/
theorem valid_of_refuse (hB : B.Lawful) {response : Response} {kind : Kind} {bytes : List UInt8}
    {a : Entry} (h : (Meaning.refuse response kind (Text.ofBytes bytes)).2.map Entry.of = some a) :
    a.pctStr.Valid B ∧ a.pctStr.raw = bytes := by
  rcases ofBytes_cases bytes with ⟨t, ht, rfl, -⟩ | ⟨hnone, -⟩
  · obtain rfl : Entry.of ⟨kind, t⟩ = a := by simpa [ht, Meaning.refuse] using h
    exact ⟨valid_of hB _, by rw [Entry.pctStr_of]⟩
  · simp [hnone, Meaning.refuse] at h

/-- Without a leak, `encode_bytes` returns a valid value. -/
theorem encodeBytes_valid (hB : B.Lawful) {encoder : Encoder} {src : String}
    (hleak : ¬ (Request.make (.encodeBytes src encoder)).Leaks B) {p : PctString}
    (hp : PctString.encodeBytes B src encoder = .ok p) : p.asPctStr.Valid B := by
  unfold PctString.encodeBytes at hp
  split at hp
  · rename_i table htable
    have hnone : B.simdFeature = true → ∀ ls, encoder.asciiKeepLoShuf = some ls →
        ¬ LeaksPercent ls (Utf8.encode src.toList) :=
      fun hsimd ls hls h => hleak ⟨hsimd, by simp [htable], ls, hls, h⟩
    obtain ⟨ws, hrun, hconsumed, hcopy⟩ := encodeBytesLoop_sound encoder table hnone
    dsimp only at hp
    rw [hrun] at hp
    cases hp
    exact ((decodes_iff hB hconsumed).mpr hcopy).1
  · cases hp
    exact (hB.encode_spec encoder src.toList).1

/-- The output of a call of `encode_bytes` whose shuffle leaks. -/
def Leaked (B : Build ε) (done : List Request) (a : Entry) : Prop :=
  ∃ src encoder, .make (.encodeBytes src encoder) ∈ done ∧
    (Request.make (.encodeBytes src encoder)).Leaks B ∧
    PctString.encodeBytes B src encoder = .ok ⟨a.pctStr.raw⟩

/-- A valid value, UTF-8 itself unless its bytes were passed in. -/
def Sound (B : Build ε) (done : List Request) (a : Entry) : Prop :=
  a.pctStr.Valid B ∧
    (Utf8.WellFormed a.pctStr.raw ∨ ∃ r ∈ done, r.rawInput = some a.pctStr.raw)

/-- Making a value never faults, and what is made is sound or leaked. -/
theorem exists_make (hB : B.Lawful) (m : Maker) :
    ∃ o made, m.make B = .ok (o, made) ∧
      ∀ a, made = some a → Sound B [.make m] a ∨ Leaked B [.make m] a := by
  cases m with
  | newSlice bytes =>
    refine ⟨_, _, make_of hB trivial, fun a ha => .inl ?_⟩
    obtain ⟨hvalid, rfl⟩ := valid_of_refuse hB ha
    exact ⟨hvalid, .inr ⟨_, List.mem_singleton_self _, rfl⟩⟩
  | newOwned bytes =>
    refine ⟨_, _, make_of hB trivial, fun a ha => .inl ?_⟩
    obtain ⟨hvalid, rfl⟩ := valid_of_refuse hB ha
    exact ⟨hvalid, .inr ⟨_, List.mem_singleton_self _, rfl⟩⟩
  | tryFromSlice value =>
    refine ⟨_, _, make_of hB trivial, fun a ha => .inl ?_⟩
    obtain ⟨hvalid, hraw⟩ := valid_of_refuse hB ha
    exact ⟨hvalid, .inl ⟨value.toList, hraw.symm⟩⟩
  | tryFromOwned value =>
    refine ⟨_, _, make_of hB trivial, fun a ha => .inl ?_⟩
    obtain ⟨hvalid, hraw⟩ := valid_of_refuse hB ha
    exact ⟨hvalid, .inl ⟨value.toList, hraw.symm⟩⟩
  | encode src encoder =>
    refine ⟨_, _, rfl, ?_⟩
    rintro _ ⟨⟩
    refine .inl ⟨(hB.encode_spec encoder src).1, .inl ?_⟩
    rw [PctString.encode_eq]
    exact wellFormed_spell_encodeTokens encoder src
  | encodeBytes src encoder =>
    obtain ⟨p, hp, hwf⟩ := exists_encodeBytes B encoder src
    refine ⟨_, _, by rw [Maker.make, hp, Exec.ok_bind, Exec.pure_eq], ?_⟩
    rintro _ ⟨⟩
    by_cases hleak : (Request.make (.encodeBytes src encoder)).Leaks B
    · exact .inr ⟨src, encoder, by simp, hleak, hp⟩
    · exact .inl ⟨encodeBytes_valid hB hleak hp, .inl hwf⟩

/-! ## The invariant of a session -/

/-- The values are sound or leaked. -/
def Keeps (B : Build ε) (done : List Request) (pool : List Entry) : Prop :=
  ∀ a ∈ pool, Sound B done a ∨ Leaked B done a

theorem Sound.mono {done done' : List Request} {a : Entry} (h : Sound B done a)
    (hsub : done ⊆ done') : Sound B done' a :=
  h.imp_right (Or.imp_right fun ⟨r, hr, hraw⟩ => ⟨r, hsub hr, hraw⟩)

theorem Leaked.mono {done done' : List Request} {a : Entry} (h : Leaked B done a)
    (hsub : done ⊆ done') : Leaked B done' a := by
  obtain ⟨src, encoder, hmem, hleak, hp⟩ := h
  exact ⟨src, encoder, hsub hmem, hleak, hp⟩

theorem Keeps.step (hB : B.Lawful) {done : List Request} {pool pool' : List Entry} {r : Request}
    {o : Response} (hpool : Keeps B done pool) (h : Client.step B pool r = .ok (o, pool')) :
    Keeps B (done ++ [r]) pool' := by
  have old {a : Entry} (ha : a ∈ pool) : Sound B (done ++ [r]) a ∨ Leaked B (done ++ [r]) a :=
    (hpool a ha).imp (·.mono (by simp)) (·.mono (by simp))
  intro a ha
  rcases step_cases h with rfl | ⟨i, rfl⟩ | ⟨b, hb, c, hc, rfl⟩ | ⟨m, made, rfl, hmake, rfl⟩
  · exact old ha
  · exact old (List.mem_of_mem_eraseIdx ha)
  · rw [List.mem_append, List.mem_singleton] at ha
    rcases ha with ha | rfl
    · exact old ha
    · have hb := old hb
      unfold Sound Leaked at hb ⊢
      rwa [hc]
  · rcases List.mem_append.mp ha with ha | ha
    · exact old ha
    · obtain ⟨o', made', hmake', hmade⟩ := exists_make hB m
      rw [hmake] at hmake'
      cases hmake'
      exact (hmade a (by simpa using ha)).imp (·.mono (by simp)) (·.mono (by simp))

/-- A request that looks at valid values faults exactly when it reads the raw text of one
that splits a character. -/
theorem step_eq_error (hB : B.Lawful) {pool : List Entry} {r : Request} {e : Fault}
    (hvalid : ∀ a, r.Touches pool a → a.pctStr.Valid B) :
    Client.step B pool r = .error e ↔
      e = .invalidUtf8 ∧ ∃ a, r.Reads pool a ∧ SplitsCharacter a.pctStr.raw := by
  cases r with
  | make m =>
    obtain ⟨o, made, hmake, -⟩ := exists_make hB m
    simp [Client.step, hmake, Request.Reads]
  | toOwned i =>
    simp only [Client.step]
    split <;> simp [Request.Reads]
  | asPctStr i =>
    simp only [Client.step]
    split <;> simp [Request.Reads]
  | intoString i =>
    simp only [Client.step, Request.Reads]
    split
    · rename_i p hp
      have hstr := asStr_eq_error (e := e) hB (hvalid _ hp)
      rw [Exec.bind_pure_eq_error, hp]
      exact hstr.trans (and_congr_right fun _ => by simp)
    · rename_i hslice
      refine iff_of_false (by simp) ?_
      rintro ⟨-, a, ⟨ha, p, rfl⟩, -⟩
      exact hslice p ha
  | intoBytes i =>
    simp only [Client.step]
    split <;> simp [Request.Reads]
  | view i v =>
    simp only [Client.step]
    split
    · rename_i a ha
      have hvalid := hvalid _ ha
      rw [Exec.bind_pure_eq_error, view_eq_error hB hvalid, asStr_eq_error hB hvalid]
      cases v <;> simp [Request.Reads, ha]
    · rename_i hnone
      cases v <;> simp [Request.Reads, hnone]
  | compare i j c =>
    simp only [Client.step]
    split
    · rename_i a b ha hb
      obtain ⟨h, rfl⟩ := exists_holding hB (hvalid _ (.inl ha))
      obtain ⟨k, rfl⟩ := exists_holding hB (hvalid _ (.inr hb))
      simp [compare_of, Request.Reads]
    · simp [Request.Reads]

/-! ## Whole sessions -/

/-- What a session holds. -/
theorem keeps_of_run (hB : B.Lawful) {requests : List Request} {os : List Response}
    {pool : List Entry} (h : (machine B).run [] requests = .ok (os, pool)) :
    Keeps B requests pool := by
  have hinit : Keeps B [] [] := by simp [Keeps]
  exact Machine.run_invariant _ (Keeps B)
    (fun _ _ _ _ _ _ hpool hstep => hpool.step hB hstep) hinit h

/-- Without leaks, all values are sound. -/
theorem Keeps.sound {done : List Request} {pool : List Entry} (h : Keeps B done pool)
    (hleak : ∀ r ∈ done, ¬ r.Leaks B) : ∀ a ∈ pool, Sound B done a := by
  intro a ha
  refine (h a ha).resolve_right ?_
  rintro ⟨src, encoder, hmem, hleaks, -⟩
  exact hleak _ hmem hleaks

/-- A client that passes texts, and encoders whose shuffle leaks nothing, gets an answer to
every request, whatever their order. All it ever holds are valid values, UTF-8 themselves. -/
theorem run_safe (hB : B.Lawful) (requests : List Request)
    (hleak : ∀ r ∈ requests, ¬ r.Leaks B)
    (htext : ∀ r ∈ requests, ∀ bytes, r.rawInput = some bytes → Utf8.WellFormed bytes) :
    ∃ os pool, (machine B).run [] requests = .ok (os, pool) ∧
      ∀ a ∈ pool, a.pctStr.Valid B ∧ Utf8.WellFormed a.pctStr.raw := by
  refine Machine.run_total (machine B)
    (fun pool => ∀ a ∈ pool, a.pctStr.Valid B ∧ Utf8.WellFormed a.pctStr.raw) ?_ (by simp)
  intro pool r hr hpool
  have hkeeps : Keeps B [] pool := fun a ha => .inl ((hpool a ha).imp_right .inl)
  cases hstep : (machine B).step pool r with
  | error e =>
    obtain ⟨-, a, hreads, hsplits⟩ :=
      (step_eq_error hB fun a ha => (hpool a ha.mem).1).mp hstep
    have htext := (hpool a hreads.touches.mem).2
    exact absurd hsplits (hsplits.accepted.wellFormed_iff.mp htext)
  | ok result =>
    refine ⟨result.1, result.2, rfl, ?_⟩
    intro a ha
    have hsound := (hkeeps.step hB hstep).sound (by simpa using hleak r hr)
    obtain ⟨hvalid, hraw⟩ := hsound a ha
    refine ⟨hvalid, hraw.elim id ?_⟩
    rintro ⟨r', hr', hbytes⟩
    obtain rfl : r' = r := by simpa using hr'
    exact htext r' hr _ hbytes

/-- A `%` that only a shuffle would leak, in a build without shuffles. -/
theorem run_safe_scalar :
    ∃ os pool, (machine (referenceBuild true false)).run []
        [.make (.newSlice [0x25, 0x34, 0x31]), .make (.encodeBytes "100% pure sugar!" keepAll),
          .view 1 .asStr, .toOwned 0, .intoString 2, .compare 0 1 .eq] = .ok (os, pool) ∧
      ∀ a ∈ pool, a.pctStr.Valid (referenceBuild true false) ∧ Utf8.WellFormed a.pctStr.raw := by
  apply run_safe (referenceBuild_lawful true false)
  · simp [Request.Leaks, referenceBuild]
  · have hascii : Utf8.WellFormed [0x25, 0x34, 0x31] := Utf8.wellFormed_of_ascii (by simp)
    simp [Request.rawInput, hascii]

/-- A session whose encoders leak nothing faults exactly where it reads the raw text of a
value that splits a character, and the bytes of that value were passed in before. -/
theorem run_eq_error_iff (hB : B.Lawful) (requests : List Request)
    (hleak : ∀ r ∈ requests, ¬ r.Leaks B) (e : Fault) :
    (machine B).run [] requests = .error e ↔ e = .invalidUtf8 ∧
      ∃ pre r post os pool a, requests = pre ++ r :: post ∧
        (machine B).run [] pre = .ok (os, pool) ∧ r.Reads pool a ∧
        SplitsCharacter a.pctStr.raw ∧ ∃ input ∈ pre, input.rawInput = some a.pctStr.raw := by
  rw [Machine.run_eq_error]
  constructor
  · rintro ⟨pre, r, post, os, pool, rfl, hrun, hstep⟩
    have hsound := (keeps_of_run hB hrun).sound fun r hr => hleak r (by simp [hr])
    obtain ⟨rfl, a, hreads, hsplits⟩ :=
      (step_eq_error hB fun a ha => (hsound a ha.mem).1).mp hstep
    have hraw := hsplits.accepted.wellFormed_iff.not_left.mpr hsplits
    exact ⟨rfl, pre, r, post, os, pool, a, rfl, hrun, hreads, hsplits,
      (hsound a hreads.touches.mem).2.resolve_left hraw⟩
  · rintro ⟨rfl, pre, r, post, os, pool, a, rfl, hrun, hreads, hsplits, -⟩
    have hsound := (keeps_of_run hB hrun).sound fun r hr => hleak r (by simp [hr])
    refine ⟨pre, r, post, os, pool, rfl, hrun, ?_⟩
    exact (step_eq_error hB fun a ha => (hsound a ha.mem).1).mpr ⟨rfl, a, hreads, hsplits⟩

theorem halfEncoded_splits : SplitsCharacter halfEncoded :=
  ⟨[.literal ⟨0xC3, by decide⟩, tripletOf 0xA9], rfl, ⟨['é'], rfl⟩,
    [], _, _, [], rfl, by decide, by decide⟩

/-- A client that passes half of a character in and reads it. -/
theorem run_eq_error_iff_halfEncoded :
    (machine (referenceBuild true true)).run []
      [.make (.newSlice halfEncoded), .view 0 .asStr] = .error .invalidUtf8 := by
  have hB := referenceBuild_lawful true true
  have hnew := hB.pctStr_new_of_accepted halfEncoded_splits.accepted
  refine (run_eq_error_iff hB _ (by simp [Request.Leaks]) _).mpr
    ⟨rfl, [.make (.newSlice halfEncoded)], .view 0 .asStr, [], [.made], [.slice ⟨halfEncoded⟩],
      .slice ⟨halfEncoded⟩, rfl, ?_, rfl, halfEncoded_splits, .make (.newSlice halfEncoded),
      by simp, rfl⟩
  simp [machine, Machine.run, Client.step, Maker.make, hnew]

/-- Whatever a session does, with any encoders: when a request faults, it reads the raw text
of a value that splits a character and was passed in, or it looks at the output of a call of
`encode_bytes` that leaked a `%`. -/
theorem run_blame (hB : B.Lawful) {requests : List Request} {e : Fault}
    (h : (machine B).run [] requests = .error e) :
    ∃ pre r post os pool, requests = pre ++ r :: post ∧
      (machine B).run [] pre = .ok (os, pool) ∧ (machine B).step pool r = .error e ∧
      ((e = .invalidUtf8 ∧ ∃ a, r.Reads pool a ∧ SplitsCharacter a.pctStr.raw ∧
          ∃ input ∈ pre, input.rawInput = some a.pctStr.raw) ∨
        ∃ a, r.Touches pool a ∧ ∃ src encoder, .make (.encodeBytes src encoder) ∈ pre ∧
          (Request.make (.encodeBytes src encoder)).Leaks B ∧
          PctString.encodeBytes B src encoder = .ok ⟨a.pctStr.raw⟩) := by
  obtain ⟨pre, r, post, os, pool, rfl, hrun, hstep⟩ := (Machine.run_eq_error _).mp h
  refine ⟨pre, r, post, os, pool, rfl, hrun, hstep, ?_⟩
  have hkeeps := keeps_of_run hB hrun
  by_cases hleaked : ∃ a, r.Touches pool a ∧ Leaked B pre a
  · exact .inr hleaked
  · have hsound {a : Entry} (ha : r.Touches pool a) : Sound B pre a :=
      (hkeeps a ha.mem).resolve_right fun hl => hleaked ⟨a, ha, hl⟩
    obtain ⟨rfl, a, hreads, hsplits⟩ := (step_eq_error hB fun a ha => (hsound ha).1).mp hstep
    have hraw := hsplits.accepted.wellFormed_iff.not_left.mpr hsplits
    exact .inl ⟨rfl, a, hreads, hsplits, (hsound hreads.touches).2.resolve_left hraw⟩

theorem run_blame_halfEncoded :
    ∃ pre r post os pool,
      [.make (.newSlice halfEncoded), .view 0 .asStr] = pre ++ r :: post ∧
      (machine (referenceBuild true true)).run [] pre = .ok (os, pool) ∧
      (machine (referenceBuild true true)).step pool r = .error .invalidUtf8 := by
  have hB := referenceBuild_lawful true true
  have hnew := hB.pctStr_new_of_accepted halfEncoded_splits.accepted
  have hread : PctStr.asStr ⟨halfEncoded⟩ = .error .invalidUtf8 :=
    (asStr_eq_error hB hnew).mpr ⟨rfl, halfEncoded_splits⟩
  have hfault : (machine (referenceBuild true true)).run []
      [.make (.newSlice halfEncoded), .view 0 .asStr] = .error .invalidUtf8 := by
    simp [machine, Machine.run, Client.step, Maker.make, hnew, Entry.view, Entry.pctStr, hread]
  obtain ⟨pre, r, post, os, pool, hsplit, hrun, hstep, -⟩ := run_blame hB hfault
  exact ⟨pre, r, post, os, pool, hsplit, hrun, hstep⟩

end Client

end Pct
