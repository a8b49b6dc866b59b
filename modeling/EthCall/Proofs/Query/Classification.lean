import EthCall.Proofs.Abi.RoundTrip
import EthCall.Query

/-!
# The classification of reverts

Which of the known errors a revert is taken for is told by the first four
bytes of its payload. Several errors may have them as their selector, and
the first one decides (`CustomError.FirstWith`), for better or worse: where
it cannot decode the payload, the payload is kept, and the later ones are
not asked. So a revert is a known error for one reason only
(`Revert.classify_eq_known_iff`), a payload is kept for one of three
(`Revert.classify_eq_unrecognized_iff`), and there is nothing else that can
come of it (`Revert.classify_cases`).
-/

namespace EthCall

open Abi Evm

namespace Abi

/-- The payload of a revert starts with the selector of its error. -/
theorem CustomError.exists_eq_append_of_encodeRevert {e : CustomError} {arguments : List Value}
    {payload : Bytes} (h : e.encodeRevert arguments = .ok payload) :
    ∃ rest, payload = e.selector.bytes ++ rest := by
  unfold encodeRevert encodeBehind at h
  cases hbs : encode arguments e.inputSchemas with
  | error _ =>
    rw [hbs] at h
    cases h
  | ok bs =>
    rw [hbs] at h
    exact ⟨bs, (Except.ok.inj h).symm⟩

/-- **The first of the known errors that has these bytes as its
selector.** -/
def CustomError.FirstWith (known : List CustomError) (bytes : Bytes) (e : CustomError) : Prop :=
  ∃ front back, known = front ++ e :: back ∧ e.selector.bytes = bytes
    ∧ ∀ d ∈ front, d.selector.bytes ≠ bytes

/-- It is the one that is found. -/
theorem CustomError.find?_eq_some_iff_firstWith {known : List CustomError} {bytes : Bytes}
    {e : CustomError} : known.find? (fun e => e.selector.bytes = bytes) = some e
      ↔ FirstWith known bytes e := by
  rw [List.find?_eq_some_iff_append]
  constructor
  · rintro ⟨he, front, back, heq, hfront⟩
    exact ⟨front, back, heq, of_decide_eq_true he, fun d hd => by simpa using hfront d hd⟩
  · rintro ⟨front, back, heq, he, hfront⟩
    exact ⟨decide_eq_true he, front, back, heq, fun d hd => by simpa using hfront d hd⟩

/-- There is a first one, or there is none at all. -/
theorem CustomError.firstWith_cases (known : List CustomError) (bytes : Bytes) :
    (∃ e, FirstWith known bytes e) ∨ ∀ d ∈ known, d.selector.bytes ≠ bytes := by
  cases hfind : known.find? fun e => e.selector.bytes = bytes with
  | some e => exact .inl ⟨e, find?_eq_some_iff_firstWith.mp hfind⟩
  | none => exact .inr fun d hd => by simpa using List.find?_eq_none.mp hfind d hd

end Abi

namespace Revert

variable {known : List CustomError} {halt : Option Halt} {payload : Bytes} {e : CustomError}
  {arguments : List Value}

/-- A payload with the selector of an error is not too short for one. -/
theorem not_length_lt_of_firstWith (h : e.FirstWith known (payload.take 4)) :
    ¬ payload.length < 4 := by
  obtain ⟨front, back, -, hbytes, -⟩ := h
  have hlen := congrArg List.length hbytes
  rw [e.selector.length_bytes, List.length_take] at hlen
  omega

/-- The first error with the selector of a payload decodes it. -/
theorem classify_of_decodeRevert_ok (halt : Option Halt) (h : e.FirstWith known (payload.take 4))
    {values : List Value} (hdecode : e.decodeRevert payload = .ok values) :
    classify known halt payload = .known e values := by
  unfold classify
  rw [if_neg (not_length_lt_of_firstWith h), CustomError.find?_eq_some_iff_firstWith.mpr h]
  simp only [hdecode]

/-- Where it cannot, the payload is kept. -/
theorem classify_of_decodeRevert_error (halt : Option Halt)
    (h : e.FirstWith known (payload.take 4)) {err : AbiError}
    (hdecode : e.decodeRevert payload = .error err) :
    classify known halt payload = .unrecognized payload halt := by
  unfold classify
  rw [if_neg (not_length_lt_of_firstWith h), CustomError.find?_eq_some_iff_firstWith.mpr h]
  simp only [hdecode]

/-- Where there is no such error, the payload is kept as well. -/
theorem classify_of_no_match (halt : Option Halt)
    (h : ∀ d ∈ known, d.selector.bytes ≠ payload.take 4) :
    classify known halt payload = .unrecognized payload halt := by
  have hfind : known.find? (fun e => e.selector.bytes = payload.take 4) = none :=
    List.find?_eq_none.mpr fun d hd hbytes => h d hd (of_decide_eq_true hbytes)
  unfold classify
  rw [hfind, ite_self]

/-- **What is taken for a known error**: a payload that has its selector, no
earlier error having it too, and that is decoded by it. -/
theorem classify_eq_known_iff {values : List Value} :
    classify known halt payload = .known e values
      ↔ e.FirstWith known (payload.take 4) ∧ e.decodeRevert payload = .ok values := by
  constructor
  · intro h
    rcases CustomError.firstWith_cases known (payload.take 4) with ⟨d, hd⟩ | hnone
    · cases hdecode : d.decodeRevert payload with
      | error err => cases (classify_of_decodeRevert_error halt hd hdecode).symm.trans h
      | ok vs =>
        cases (classify_of_decodeRevert_ok halt hd hdecode).symm.trans h
        exact ⟨hd, hdecode⟩
    · cases (classify_of_no_match halt hnone).symm.trans h
  · rintro ⟨hfirst, hdecode⟩
    exact classify_of_decodeRevert_ok halt hfirst hdecode

/-- **What is kept**: a payload that is too short for a selector or has one
that no known error has, and one that the first error that has it cannot
decode. -/
theorem classify_eq_unrecognized_iff :
    classify known halt payload = .unrecognized payload halt
      ↔ payload.length < 4 ∨ (∀ d ∈ known, d.selector.bytes ≠ payload.take 4)
        ∨ ∃ d err, CustomError.FirstWith known (payload.take 4) d
          ∧ d.decodeRevert payload = .error err := by
  constructor
  · intro h
    rcases CustomError.firstWith_cases known (payload.take 4) with ⟨d, hd⟩ | hnone
    · cases hdecode : d.decodeRevert payload with
      | error err => exact .inr (.inr ⟨d, err, hd, hdecode⟩)
      | ok vs => cases (classify_of_decodeRevert_ok halt hd hdecode).symm.trans h
    · exact .inr (.inl hnone)
  · rintro (hlen | hnone | ⟨d, err, hd, hdecode⟩)
    · exact if_pos hlen
    · exact classify_of_no_match halt hnone
    · exact classify_of_decodeRevert_error halt hd hdecode

/-- Nothing else comes of a payload. -/
theorem classify_cases (known : List CustomError) (halt : Option Halt) (payload : Bytes) :
    (∃ e values, classify known halt payload = .known e values)
      ∨ classify known halt payload = .unrecognized payload halt := by
  unfold classify
  split
  · exact .inr rfl
  · split
    · exact .inr rfl
    · split
      · exact .inl ⟨_, _, rfl⟩
      · exact .inr rfl

/-! ## Encoded errors -/

/-- The first four bytes are the selector. -/
theorem take_of_encodeRevert (h : e.encodeRevert arguments = .ok payload) (suffix : Bytes) :
    (payload ++ suffix).take 4 = e.selector.bytes := by
  obtain ⟨rest, rfl⟩ := CustomError.exists_eq_append_of_encodeRevert h
  rw [List.append_assoc, List.take_left' e.selector.length_bytes]

/-- A selector that is given by its bytes. -/
theorem find?_bytes (known : List CustomError) (selector : Selector) :
    known.find? (fun e => e.selector.bytes = selector.bytes)
      = known.find? fun e => e.selector = selector := by
  refine congrArg (fun p => known.find? p) (funext fun e => ?_)
  exact decide_eq_decide.mpr ⟨FixedBytes.ext, fun h => h ▸ rfl⟩

/-- **An error that is the first with its selector is recognized**, with
any bytes behind its payload. -/
theorem classify_of_find? (h : e.encodeRevert arguments = .ok payload) {suffix : Bytes}
    (hsize : payload.length + suffix.length ≤ maxSize)
    (hfind : known.find? (fun d => d.selector = e.selector) = some e) (halt : Option Halt) :
    classify known halt (payload ++ suffix) = .known e arguments := by
  have htake := take_of_encodeRevert h suffix
  refine classify_eq_known_iff.mpr ⟨?_, decodeBehind_of_encodeBehind h hsize⟩
  rw [htake, ← CustomError.find?_eq_some_iff_firstWith, find?_bytes]
  exact hfind

/-- **One that none of the known errors shares its selector with is not**,
and its payload is kept. -/
theorem classify_of_forall_ne (h : e.encodeRevert arguments = .ok payload) (suffix : Bytes)
    (hknown : ∀ d ∈ known, d.selector ≠ e.selector) (halt : Option Halt) :
    classify known halt (payload ++ suffix) = .unrecognized (payload ++ suffix) halt := by
  have htake := take_of_encodeRevert h suffix
  refine classify_of_no_match halt fun d hd hbytes => hknown d hd ?_
  exact FixedBytes.ext (hbytes.trans htake)

/-- **What a revert should tell of its payload.** -/
structure Tells (known : List CustomError) (payload : Bytes) (revert : Revert) : Prop where
  /-- It is a known error for a payload that the first error with its
  selector decodes, and that error. -/
  known_iff : ∀ e values, revert = .known e values
    ↔ e.FirstWith known (payload.take 4) ∧ e.decodeRevert payload = .ok values
  /-- It is the payload for all others. -/
  kept_iff : revert = .unrecognized payload none
    ↔ payload.length < 4 ∨ (∀ d ∈ known, d.selector.bytes ≠ payload.take 4)
      ∨ ∃ d err, CustomError.FirstWith known (payload.take 4) d
        ∧ d.decodeRevert payload = .error err
  /-- There is nothing else that it can be. -/
  known_or_kept : (∃ e values, revert = .known e values) ∨ revert = .unrecognized payload none
  /-- An error that is encoded is recognized, with any bytes behind it,
  unless an earlier one has its selector. -/
  of_encodeRevert : ∀ front e back values bs junk, known = front ++ e :: back →
    (∀ d ∈ front, d.selector ≠ e.selector) → e.encodeRevert values = .ok bs →
    payload = bs ++ junk → payload.length < 2 ^ 64 → revert = .known e values

/-- **A classified payload tells what it should.** -/
theorem tells_classify (known : List CustomError) (payload : Bytes) :
    Tells known payload (classify known none payload) where
  known_iff _ _ := classify_eq_known_iff
  kept_iff := classify_eq_unrecognized_iff
  known_or_kept := classify_cases known none payload
  of_encodeRevert := by
    rintro front e back values bs junk rfl hfront hencode rfl hsize
    have htake := take_of_encodeRevert hencode junk
    rw [List.length_append] at hsize
    refine classify_eq_known_iff.mpr
      ⟨⟨front, back, rfl, htake.symm, fun d hd hbytes => ?_⟩,
        decodeBehind_of_encodeBehind hencode (Nat.le_pred_of_lt hsize)⟩
    exact hfront d hd (FixedBytes.ext (hbytes.trans htake))

end Revert

end EthCall
