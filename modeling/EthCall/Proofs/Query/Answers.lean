import EthCall.Proofs.Query.Classification

/-!
# What is made of an outcome

A query has five outcomes to tell apart – an output, the payload of a
revert, a halt, a fault, and arguments that cannot be encoded – and nothing
of what an execution says may be lost on the way. Here it is said what
comes of each, for any executor whatever: only a fault is an error of a
query (`Query.execute_eq_error_iff`), what comes of the payload of a revert
is told by its classification (`Revert.Tells`), and a call has results only
if the contract has returned (`Query.call_eq_ok_iff`).
-/

namespace EthCall

open Abi Evm

namespace Query

variable {executor : Executor} {known : List CustomError} {code calldata : Bytes}
  {f : Function} {arguments : List Value}

/-- **Only a fault is an error of a query.** -/
theorem execute_eq_error_iff {error : QueryError} :
    execute executor known code calldata = .error error
      ↔ ∃ fault, executor code calldata = .error fault ∧ error = .fault fault := by
  unfold execute
  cases executor code calldata with
  | error fault => simp [eq_comm]
  | ok x => simp

/-- Everything else is the classified outcome. -/
theorem execute_of_outcome {x : Execution} {o : Outcome} (hx : executor code calldata = .ok x)
    (ho : x.outcome = o) : execute executor known code calldata = .ok (.ofOutcome known o) := by
  unfold execute
  rw [hx, ← ho]

/-! ## Calls -/

section Calls

variable (hencode : f.encodeCall arguments = .ok calldata)
include hencode

/-- A query that fails is a call that fails. -/
theorem call_of_error {error : QueryError}
    (h : execute executor known code calldata = .error error) :
    call executor known code f arguments = .error error := by
  unfold call
  rw [hencode]
  simp only [h]

/-- A revert is an error of the call. -/
theorem call_of_reverted {revert : Revert}
    (h : execute executor known code calldata = .ok (.reverted revert)) :
    call executor known code f arguments = .error (.reverted revert) := by
  unfold call
  rw [hencode]
  simp only [h]

/-- An output is decoded. -/
theorem call_of_decodeResult_ok {output : Bytes} {results : List Value}
    (h : execute executor known code calldata = .ok (.success output))
    (hdecode : f.decodeResult output = .ok results) :
    call executor known code f arguments = .ok results := by
  unfold call
  rw [hencode]
  simp only [h, hdecode]

/-- An output that cannot be decoded is an error of the call. -/
theorem call_of_decodeResult_error {output : Bytes} {err : AbiError}
    (h : execute executor known code calldata = .ok (.success output))
    (hdecode : f.decodeResult output = .error err) :
    call executor known code f arguments = .error (.abi err) := by
  unfold call
  rw [hencode]
  simp only [h, hdecode]

end Calls

/-- **A call has results only if the contract has returned**, and they are
what its output decodes to. -/
theorem call_eq_ok_iff {results : List Value} :
    call executor known code f arguments = .ok results
      ↔ ∃ calldata x output, f.encodeCall arguments = .ok calldata
        ∧ executor code calldata = .ok x ∧ x.outcome = .returned output
        ∧ f.decodeResult output = .ok results := by
  constructor
  · intro h
    cases hencode : f.encodeCall arguments with
    | error e =>
      rw [call, hencode] at h
      cases h
    | ok calldata =>
      cases hx : executor code calldata with
      | error fault =>
        cases (call_of_error hencode (execute_eq_error_iff.mpr ⟨fault, hx, rfl⟩)).symm.trans h
      | ok x =>
        cases ho : x.outcome with
        | returned output =>
          cases hdecode : f.decodeResult output with
          | error e =>
            cases (call_of_decodeResult_error hencode (execute_of_outcome hx ho)
              hdecode).symm.trans h
          | ok decoded =>
            cases (call_of_decodeResult_ok hencode (execute_of_outcome hx ho)
              hdecode).symm.trans h
            exact ⟨calldata, x, output, rfl, hx, ho, hdecode⟩
        | reverted | halted =>
          cases (call_of_reverted hencode (execute_of_outcome hx ho)).symm.trans h
  · rintro ⟨calldata, x, output, hencode, hx, ho, hdecode⟩
    exact call_of_decodeResult_ok hencode (execute_of_outcome hx ho) hdecode

/-- **Nothing of an outcome is lost**, whatever the executor, the code and
the known errors are. When the code is executed,

* a fault is reported as a fault, and nothing else is an error;
* a halt is a revert without a payload that tells the mistake;
* a revert tells of its payload what it should (`Revert.Tells`).

When a function is called,

* it has no results unless the contract has returned and its output decodes
  to them;
* it has the results that were encoded, with any bytes behind them;
* a fault, a halt and a revert are reported as they are. -/
theorem loses_nothing (executor : Executor) (known : List CustomError) (code : Bytes) :
    (∀ calldata, (∀ error, execute executor known code calldata = .error error
        ↔ ∃ fault, executor code calldata = .error fault ∧ error = .fault fault)
      ∧ (∀ x reason, executor code calldata = .ok x → x.outcome = .halted reason →
        execute executor known code calldata
          = .ok (.reverted (.unrecognized [] (some reason))))
      ∧ ∀ x payload, executor code calldata = .ok x → x.outcome = .reverted payload →
        ∃ revert, execute executor known code calldata = .ok (.reverted revert)
          ∧ revert.Tells known payload)
    ∧ ∀ (f : Function) (arguments : List Value),
      (∀ results, call executor known code f arguments = .ok results ↔
        ∃ calldata x output, f.encodeCall arguments = .ok calldata
          ∧ executor code calldata = .ok x ∧ x.outcome = .returned output
          ∧ f.decodeResult output = .ok results)
      ∧ ∀ calldata, f.encodeCall arguments = .ok calldata →
        (∀ x results bs junk, executor code calldata = .ok x →
          x.outcome = .returned (bs ++ junk) → encode results f.outputSchemas = .ok bs →
          (bs ++ junk).length < 2 ^ 64 →
          call executor known code f arguments = .ok results)
        ∧ (∀ error, execute executor known code calldata = .error error →
          call executor known code f arguments = .error error)
        ∧ ∀ revert, execute executor known code calldata = .ok (.reverted revert) →
          call executor known code f arguments = .error (.reverted revert) := by
  refine ⟨fun calldata => ⟨fun _ => execute_eq_error_iff, fun x reason hx ho => ?_,
    fun x payload hx ho => ?_⟩, fun f arguments => ⟨fun _ => call_eq_ok_iff,
    fun calldata hencode => ⟨?_, fun _ => call_of_error hencode,
      fun _ => call_of_reverted hencode⟩⟩⟩
  · exact execute_of_outcome hx ho
  · exact ⟨_, execute_of_outcome hx ho, Revert.tells_classify known payload⟩
  · intro x results bs junk hx ho hbs hsize
    refine call_eq_ok_iff.mpr ⟨calldata, x, bs ++ junk, hencode, hx, ho, ?_⟩
    exact decode_of_encode hbs (List.prefix_append bs junk) fun _ => Nat.le_pred_of_lt hsize

/-- An executor that does not look at the calldata: the code is what it
returns, reverts with, halts at or fails with, as its first byte says. -/
def echo : Executor := fun code _ =>
  match code with
  | 0 :: output => .ok ⟨.returned output, 0, []⟩
  | 1 :: payload => .ok ⟨.reverted payload, 0, []⟩
  | 2 :: _ => .ok ⟨.halted .stackUnderflow, 0, []⟩
  | _ => .error (.stepLimitExceeded 0)

/-- A function with one flag as its result. -/
def isOpen : Function := .ofSchemas "isOpen" [] [.bool]

/-- An error with the selector of `CustomError.panic` that has no
parameters. -/
def sameSelector : CustomError := ⟨"SameSelector", [], CustomError.panic.selector⟩

/-- What a failed assertion reverts with. -/
def panicked : Bytes := CustomError.panic.selector.bytes ++ (Word.ofNat 17).bytes

/-- The payload of an error, with a byte behind it, is recognized; behind
another error with the same selector it is that one, and too short for the
error it is kept. A flag with a byte behind it is a result. -/
theorem loses_nothing_echo :
    CustomError.panic.encodeRevert [.uint 256 17] = .ok panicked
      ∧ isOpen.encodeCall [] = .ok isOpen.selector.bytes
      ∧ execute echo [.errorString, .panic, sameSelector] (1 :: (panicked ++ [7])) []
        = .ok (.reverted (.known .panic [.uint 256 17]))
      ∧ execute echo [.errorString, sameSelector, .panic] (1 :: (panicked ++ [7])) []
        = .ok (.reverted (.known sameSelector []))
      ∧ execute echo [.panic] (1 :: panicked.take 35) []
        = .ok (.reverted (.unrecognized (panicked.take 35) none))
      ∧ execute echo [.panic] [2] [] = .ok (.reverted (.unrecognized [] (some .stackUnderflow)))
      ∧ call echo [.panic] [3] isOpen [] = .error (.fault (.stepLimitExceeded 0))
      ∧ call echo [.panic] (0 :: ((Word.ofNat 1).bytes ++ [7])) isOpen [] = .ok [.bool true] := by
  have hpanicked : CustomError.panic.encodeRevert [.uint 256 17] = .ok panicked := by
    decide +kernel
  have hcalldata : isOpen.encodeCall [] = .ok isOpen.selector.bytes := by decide +kernel
  refine ⟨hpanicked, hcalldata, ?_, ?_, ?_, ?_, ?_, ?_⟩
  · obtain ⟨revert, heq, htells⟩ := ((loses_nothing echo [.errorString, .panic, sameSelector]
      (1 :: (panicked ++ [7]))).1 []).2.2 _ _ rfl rfl
    rw [heq, htells.of_encodeRevert [.errorString] .panic [sameSelector] [.uint 256 17] panicked
      [7] rfl (by decide +kernel) hpanicked rfl (by decide +kernel)]
  · obtain ⟨revert, heq, htells⟩ := ((loses_nothing echo [.errorString, sameSelector, .panic]
      (1 :: (panicked ++ [7]))).1 []).2.2 _ _ rfl rfl
    rw [heq, (htells.known_iff sameSelector []).mpr
      ⟨⟨[.errorString], [.panic], rfl, by decide +kernel, by decide +kernel⟩, by decide +kernel⟩]
  · obtain ⟨revert, heq, htells⟩ := ((loses_nothing echo [.panic]
      (1 :: panicked.take 35)).1 []).2.2 _ _ rfl rfl
    have hfirst : CustomError.panic.FirstWith [.panic] ((panicked.take 35).take 4) :=
      ⟨[], [], rfl, by decide +kernel, by decide +kernel⟩
    rw [heq, htells.kept_iff.mpr (.inr (.inr ⟨.panic, .outOfBounds 0 32 31, hfirst,
      by decide +kernel⟩))]
  · exact ((loses_nothing echo [.panic] [2]).1 []).2.1 _ _ rfl rfl
  · exact (((loses_nothing echo [.panic] [3]).2 isOpen []).2 _ hcalldata).2.1 _ rfl
  · exact (((loses_nothing echo [.panic] (0 :: ((Word.ofNat 1).bytes ++ [7]))).2 isOpen []).2 _
      hcalldata).1 _ _ (Word.ofNat 1).bytes [7] rfl rfl (by decide +kernel) (by decide +kernel)

end Query

end EthCall
