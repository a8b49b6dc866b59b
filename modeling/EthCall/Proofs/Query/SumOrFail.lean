import EthCall.Evm.Assembler
import EthCall.Proofs.Abi.Static
import EthCall.Proofs.Evm.Number
import EthCall.Proofs.Evm.Passage
import EthCall.Proofs.Query.Classification

/-!
# A contract with two functions

`SumOrFail.directives` is a small contract as compilers write them: it
looks for the selector of a call among those of its functions and jumps to
the function that is called. One function adds its arguments and returns
the sum. The other one reverts with an error that carries its argument.
Whoever calls anything else is refused without a word.

The code that is assembled from the directives is known, and so is what
each piece of it does with numbers that are not (`EthCall.Proofs.Evm.Passage`).
From the pieces comes what an execution does on any calldata whatever
(`execute_code`), and from that the answers to all queries
(`answers`).
-/

namespace EthCall

open Abi Evm Frame

namespace SumOrFail

/-! ## The contract -/

/-- The function that adds two numbers. -/
def sum : Function := .ofSchemas "sum" [.uint 256, .uint 256] [.uint 256]

/-- The function that fails with a number. -/
def fail : Function := .ofSchemas "fail" [.uint 256] []

/-- The error it fails with. -/
def someErr : CustomError := .ofSchemas "someErr" [.uint 256]

/-- They are those of these signatures. -/
example : Function.ofSignature "sum(uint256,uint256)" [.uint 256] = .ok sum
    ∧ Function.ofSignature "fail(uint256)" [] = .ok fail
    ∧ CustomError.ofSignature "someErr(uint256)" = .ok someErr := by decide +kernel

/-- **The contract.** A function is found by its selector, which stays on
the stack. -/
def directives : List Directive :=
  -- the first word of the calldata, less all but its first four bytes
  [.op 0x5f, .op 0x35, .pushNumber 0xe0, .op 0x1c,
    .op 0x80, .pushBytes sum.selector.bytes, .op 0x14, .jumpIf "sum",
    .op 0x80, .pushBytes fail.selector.bytes, .op 0x14, .jumpIf "fail",
    .op 0x5f, .op 0x5f, .op 0xfd,
    .label "sum",
    .pushNumber 0x04, .op 0x35, .pushNumber 0x24, .op 0x35, .op 0x01,
    .op 0x5f, .op 0x52, .pushNumber 32, .op 0x5f, .op 0xf3,
    .label "fail",
    -- the selector of the error is put in front of the argument
    .pushBytes someErr.selector.bytes, .pushNumber 0xe0, .op 0x1b, .op 0x5f, .op 0x52,
    .pushNumber 0x04, .op 0x35, .pushNumber 0x04, .op 0x52, .pushNumber 0x24, .op 0x5f, .op 0xfd]

/-- Its code. -/
def code : Bytes :=
  [0x5f, 0x35, 0x60, 0xe0, 0x1c,
    0x80, 0x63, 0xca, 0xd0, 0x89, 0x9b, 0x14, 0x61, 0, 30, 0x57,
    0x80, 0x63, 0x13, 0x2e, 0x4f, 0x3c, 0x14, 0x61, 0, 44, 0x57,
    0x5f, 0x5f, 0xfd,
    0x5b, 0x60, 4, 0x35, 0x60, 36, 0x35, 0x01, 0x5f, 0x52, 0x60, 32, 0x5f, 0xf3,
    0x5b, 0x63, 0x67, 0x4d, 0x6e, 0x9e, 0x60, 0xe0, 0x1b, 0x5f, 0x52,
    0x60, 4, 0x35, 0x60, 4, 0x52, 0x60, 36, 0x5f, 0xfd]

theorem assemble_directives : assemble directives = .ok code := by decide +kernel

theorem bytes_selector_someErr : someErr.selector.bytes = [0x67, 0x4d, 0x6e, 0x9e] := by
  decide +kernel

/-! ## Pieces of the code -/

/-- The surroundings of the code on some calldata. -/
def env (calldata : Bytes) : Env := .new .standard code calldata

/-- A frame of the contract, which has nothing but a stack and memory. -/
abbrev state (pc : Nat) (stack : List UInt256) (memory : Memory) : Frame :=
  Frame.initial.placed pc stack memory

/-- The word of the calldata at an offset. -/
def wordAt (calldata : Bytes) (offset : Nat) : UInt256 :=
  numberOfBytes (zeroExtended calldata.toArray offset 32)

/-- The first four bytes of the calldata, completed by zeros. -/
def selectorIn (calldata : Bytes) : Bytes := (calldata ++ Bytes.zeros 4).take 4

/-- The number they spell. -/
def selected (calldata : Bytes) : UInt256 := numberOfBytes (selectorIn calldata)

variable {calldata : Bytes} {pc : Nat} {op : Op} {stack : List UInt256} {memory : Memory}

/-- The instructions are those of the code. -/
theorem opAt?_env (h : code[pc]?.bind Op.ofByte? = some op) :
    (env calldata).opAt? pc = some op := by
  rw [← h]
  exact congrArg (fun byte => byte.bind Op.ofByte?) List.getElem?_toArray

theorem length_selectorIn (calldata : Bytes) : (selectorIn calldata).length = 4 := by
  unfold selectorIn
  rw [List.length_take, List.length_append, Bytes.length_zeros]
  omega

/-- The selector of a call is told by its number. -/
theorem selected_eq_iff (selector : Selector) :
    selected calldata = numberOfBytes selector.bytes ↔ selectorIn calldata = selector.bytes := by
  have hlen := selector.length_bytes
  exact numberOfBytes_inj ((length_selectorIn calldata).trans hlen.symm) (by omega)

/-- The first word of the calldata starts with the selector. -/
theorem wordAt_zero_ushiftRight (calldata : Bytes) :
    wordAt calldata 0 >>> 224 = selected calldata := by
  have hlen : (zeroExtended calldata.toArray 4 28).length = 28 := length_zeroExtended _ _ _
  have hshift : numberOfBytes (selectorIn calldata ++ zeroExtended calldata.toArray 4 28)
      >>> (8 * (zeroExtended calldata.toArray 4 28).length) = numberOfBytes (selectorIn calldata) :=
    numberOfBytes_append_ushiftRight (by rw [length_selectorIn, hlen])
  rw [hlen] at hshift
  rw [selected, ← hshift, wordAt, selectorIn, ← zeroExtended_zero, zeroExtended_toArray,
    zeroExtended_toArray, zeroExtended_toArray, Row.stretch_add _ 0 4 28]

/-- **The selector is found.** -/
theorem passes_selector : Frame.initial.Passes (env calldata) 4
    (state 5 [selected calldata] .empty) := by
  rw [← wordAt_zero_ushiftRight]
  exact calc
    (state 0 [] .empty).Passes (env calldata) 1 (state 1 [0] .empty) :=
      passes_push (of_decide_eq_true rfl) 0 (opAt?_env (by decide +kernel)) rfl
    Passes (env calldata) 1 _ (state 2 [wordAt calldata 0] .empty) :=
      passes_callDataLoad (of_decide_eq_true rfl) (opAt?_env (by decide +kernel))
    Passes (env calldata) 1 _ (state 4 [0xe0, wordAt calldata 0] .empty) :=
      passes_push (of_decide_eq_true rfl) 1 (opAt?_env (by decide +kernel)) rfl
    Passes (env calldata) 1 _ (state 5 [wordAt calldata 0 >>> 224] .empty) :=
      passes_binary (of_decide_eq_true rfl) .shr (opAt?_env (by decide +kernel))

/-- **A comparison with the selector of a function**, and a jump to the
function. -/
structure ComparesAt (pc : Nat) (f : Function) (dest : UInt256) : Prop where
  /-- The selector of the call is copied. -/
  dup : code[pc]?.bind Op.ofByte? = some (.dup 1)
  /-- The selector of the function is pushed. -/
  push : code[pc + 1]?.bind Op.ofByte? = some (.push 4)
  /-- It stands in the code. -/
  pushed : zeroExtended code.toArray (pc + 2) 4 = f.selector.bytes
  /-- The two are compared. -/
  compare : code[pc + 6]?.bind Op.ofByte? = some (.binary .eq)
  /-- The place of the function is pushed. -/
  pushDest : code[pc + 7]?.bind Op.ofByte? = some (.push 2)
  /-- It stands in the code as well. -/
  pushedDest : numberOfBytes (zeroExtended code.toArray (pc + 8) 2) = dest
  /-- Execution goes on there if the two are the same. -/
  jumpIf : code[pc + 10]?.bind Op.ofByte? = some .jumpIf
  /-- It may go on there. -/
  isTarget : (jumpTargets code).getD dest.toNat false = true

theorem comparesAt_sum : ComparesAt 5 sum 30 := by
  constructor <;> decide +kernel

theorem comparesAt_fail : ComparesAt 16 fail 44 := by
  constructor <;> decide +kernel

/-- **The selector of the call stays on the stack**, whether execution goes
on in the function or behind the comparison. -/
theorem ComparesAt.passes {f : Function} {dest : UInt256} (h : ComparesAt pc f dest) :
    (state pc [selected calldata] .empty).Passes (env calldata) 5
      (state (if selectorIn calldata = f.selector.bytes then dest.toNat else pc + 11)
        [selected calldata] .empty) := by
  have hcompared : (if flag (numberOfBytes f.selector.bytes == selected calldata) = 0
        then pc + 11 else dest.toNat)
      = if selectorIn calldata = f.selector.bytes then dest.toNat else pc + 11 := by
    by_cases heq : selectorIn calldata = f.selector.bytes
    · rw [if_pos heq, selected, heq, beq_self_eq_true]
      exact if_neg (by decide)
    · have hne : numberOfBytes f.selector.bytes ≠ selected calldata :=
        fun hsame => heq ((selected_eq_iff f.selector).mp hsame.symm)
      rw [if_neg heq, beq_eq_false_iff_ne.mpr hne]
      exact if_pos rfl
  rw [← hcompared]
  generalize selected calldata = x
  generalize hs : numberOfBytes f.selector.bytes = s
  have hpushed : numberOfBytes (zeroExtended code.toArray (pc + 2) 4) = s := by
    rw [h.pushed, hs]
  exact calc
    (state pc [x] .empty).Passes (env calldata) 1 (state (pc + 1) [x, x] .empty) :=
      passes_dup (of_decide_eq_true rfl) (opAt?_env h.dup) rfl
    Passes (env calldata) 1 _ (state (pc + 6) [s, x, x] .empty) :=
      passes_push (of_decide_eq_true rfl) 4 (opAt?_env h.push) hpushed
    Passes (env calldata) 1 _ (state (pc + 7) [flag (s == x), x] .empty) :=
      passes_binary (of_decide_eq_true rfl) .eq (opAt?_env h.compare)
    Passes (env calldata) 1 _ (state (pc + 10) [dest, flag (s == x), x] .empty) :=
      passes_push (of_decide_eq_true rfl) 2 (opAt?_env h.pushDest) h.pushedDest
    Passes (env calldata) 1 _
        (state (if flag (s == x) = 0 then pc + 11 else dest.toNat) [x] .empty) :=
      passes_jumpIf (opAt?_env h.jumpIf) h.isTarget

/-- An argument is loaded. -/
theorem passes_argument {offset : Nat} (hroom : stack.length < 1024)
    (hpush : code[pc]?.bind Op.ofByte? = some (.push 1))
    (hoffset : (numberOfBytes (zeroExtended code.toArray (pc + 1) 1)).toNat = offset)
    (hload : code[pc + 2]?.bind Op.ofByte? = some .callDataLoad) :
    (state pc stack memory).Passes (env calldata) 2
      (state (pc + 3) (wordAt calldata offset :: stack) memory) := by
  subst hoffset
  exact (passes_push hroom 1 (opAt?_env hpush) rfl).trans
    (passes_callDataLoad hroom (opAt?_env hload))

/-! ## Functions -/

/-- **Where no function is called**, the contract reverts with nothing. -/
theorem ends_refusal (x : UInt256) :
    (state 27 [x] .empty).Ends (env calldata) 3 (.reverted []) [] := by
  have hpasses : (state 27 [x] .empty).Passes (env calldata) 2 (state 29 [0, 0, x] .empty) := calc
    (state 27 [x] .empty).Passes (env calldata) 1 (state 28 [0, x] .empty) :=
      passes_push (of_decide_eq_true rfl) 0 (opAt?_env (by decide +kernel)) rfl
    Passes (env calldata) 1 _ (state 29 [0, 0, x] .empty) :=
      passes_push (of_decide_eq_true rfl) 0 (opAt?_env (by decide +kernel)) rfl
  exact hpasses.ends (ends_revert (of_decide_eq_true rfl) (opAt?_env (by decide +kernel)))

/-- Two numbers on the stack are added, and the sum is returned. -/
theorem ends_returning (a b x : UInt256) : (state 37 [b, a, x] .empty).Ends (env calldata) 6
    (.returned (Word.ofUInt256 (b + a)).bytes) [] := by
  have hpasses : (state 37 [b, a, x] .empty).Passes (env calldata) 5
      (state 43 [0, 32, x] (Memory.empty.stored 0 (b + a))) := calc
    (state 37 [b, a, x] .empty).Passes (env calldata) 1 (state 38 [b + a, x] .empty) :=
      passes_binary (of_decide_eq_true rfl) .add (opAt?_env (by decide +kernel))
    Passes (env calldata) 1 _ (state 39 [0, b + a, x] .empty) :=
      passes_push (of_decide_eq_true rfl) 0 (opAt?_env (by decide +kernel)) rfl
    Passes (env calldata) 1 _ (state 40 [x] (Memory.empty.stored 0 (b + a))) :=
      passes_memoryStore (opAt?_env (by decide +kernel)) (of_decide_eq_true rfl)
    Passes (env calldata) 1 _ (state 42 [32, x] (Memory.empty.stored 0 (b + a))) :=
      passes_push (of_decide_eq_true rfl) 1 (opAt?_env (by decide +kernel)) rfl
    Passes (env calldata) 1 _ (state 43 [0, 32, x] (Memory.empty.stored 0 (b + a))) :=
      passes_push (of_decide_eq_true rfl) 0 (opAt?_env (by decide +kernel)) rfl
  rw [← Memory.empty.read_stored 0 (b + a)]
  exact hpasses.ends (ends_return_ (of_decide_eq_true rfl) (opAt?_env (by decide +kernel)))

/-- **The function that adds** returns the sum of its arguments. -/
theorem ends_sum (x : UInt256) : (state 30 [x] .empty).Ends (env calldata) 11
    (.returned (Word.ofUInt256 (wordAt calldata 36 + wordAt calldata 4)).bytes) [] := by
  have hpasses : (state 30 [x] .empty).Passes (env calldata) 5
      (state 37 [wordAt calldata 36, wordAt calldata 4, x] .empty) := calc
    (state 30 [x] .empty).Passes (env calldata) 1 (state 31 [x] .empty) :=
      passes_jumpDest (opAt?_env (by decide +kernel))
    Passes (env calldata) 2 _ (state 34 [wordAt calldata 4, x] .empty) :=
      passes_argument (of_decide_eq_true rfl) (by decide +kernel) rfl (by decide +kernel)
    Passes (env calldata) 2 _ (state 37 [wordAt calldata 36, wordAt calldata 4, x] .empty) :=
      passes_argument (of_decide_eq_true rfl) (by decide +kernel) rfl (by decide +kernel)
  exact hpasses.ends (ends_returning _ _ x)

/-- The word that starts with the selector of the error. -/
def errorWord : UInt256 := 0x674d6e9e <<< 224

/-- The payload is written in two words, and the second of them starts
within the first. -/
theorem read_payload (y : UInt256) :
    ((Memory.empty.stored 0 errorWord).stored 4 y).read 0 36
      = someErr.selector.bytes ++ (Word.ofUInt256 y).bytes := by
  have hword : (Word.ofUInt256 errorWord).bytes
      = [0x67, 0x4d, 0x6e, 0x9e] ++ Bytes.zeros 28 := by decide +kernel
  have hfront := Row.stretch_overwrite Memory.empty.byte 0 [0x67, 0x4d, 0x6e, 0x9e] (Bytes.zeros 28)
  have hrest := Row.stretch_overwrite (Memory.empty.stored 0 errorWord).byte 4
    (Word.ofUInt256 y).bytes []
  rw [List.append_nil, (Word.ofUInt256 y).length_bytes] at hrest
  rw [Memory.read_eq_stretch, Memory.byte_stored, Row.stretch_add _ 0 4 32,
    Row.stretch_overwrite_of_le _ _ (Nat.le_refl 4), hrest, Memory.byte_stored, hword,
    bytes_selector_someErr]
  exact congrArg (fun front => front ++ _) hfront

/-- **The function that fails** reverts with its argument behind the
selector of the error. -/
theorem ends_fail (x : UInt256) : (state 44 [x] .empty).Ends (env calldata) 13
    (.reverted (someErr.selector.bytes ++ (Word.ofUInt256 (wordAt calldata 4)).bytes)) [] := by
  rw [← read_payload]
  have hpushed : numberOfBytes (zeroExtended code.toArray 46 4) = 0x674d6e9e := by decide +kernel
  have hselector : (state 44 [x] .empty).Passes (env calldata) 6
      (state 55 [x] (Memory.empty.stored 0 errorWord)) := calc
    (state 44 [x] .empty).Passes (env calldata) 1 (state 45 [x] .empty) :=
      passes_jumpDest (opAt?_env (by decide +kernel))
    Passes (env calldata) 1 _ (state 50 [0x674d6e9e, x] .empty) :=
      passes_push (of_decide_eq_true rfl) 4 (opAt?_env (by decide +kernel)) hpushed
    Passes (env calldata) 1 _ (state 52 [0xe0, 0x674d6e9e, x] .empty) :=
      passes_push (of_decide_eq_true rfl) 1 (opAt?_env (by decide +kernel)) rfl
    Passes (env calldata) 1 _ (state 53 [errorWord, x] .empty) :=
      passes_binary (of_decide_eq_true rfl) .shl (opAt?_env (by decide +kernel))
    Passes (env calldata) 1 _ (state 54 [0, errorWord, x] .empty) :=
      passes_push (of_decide_eq_true rfl) 0 (opAt?_env (by decide +kernel)) rfl
    Passes (env calldata) 1 _ (state 55 [x] (Memory.empty.stored 0 errorWord)) :=
      passes_memoryStore (opAt?_env (by decide +kernel)) (of_decide_eq_true rfl)
  generalize Memory.empty.stored 0 errorWord = memory at hselector ⊢
  have hargument : (state 55 [x] memory).Passes (env calldata) 6
      (state 64 [0, 36, x] (memory.stored 4 (wordAt calldata 4))) := calc
    (state 55 [x] memory).Passes (env calldata) 2 (state 58 [wordAt calldata 4, x] memory) :=
      passes_argument (of_decide_eq_true rfl) (by decide +kernel) rfl (by decide +kernel)
    Passes (env calldata) 1 _ (state 60 [4, wordAt calldata 4, x] memory) :=
      passes_push (of_decide_eq_true rfl) 1 (opAt?_env (by decide +kernel)) rfl
    Passes (env calldata) 1 _ (state 61 [x] (memory.stored 4 (wordAt calldata 4))) :=
      passes_memoryStore (opAt?_env (by decide +kernel)) (of_decide_eq_true rfl)
    Passes (env calldata) 1 _ (state 63 [36, x] (memory.stored 4 (wordAt calldata 4))) :=
      passes_push (of_decide_eq_true rfl) 1 (opAt?_env (by decide +kernel)) rfl
    Passes (env calldata) 1 _ (state 64 [0, 36, x] (memory.stored 4 (wordAt calldata 4))) :=
      passes_push (of_decide_eq_true rfl) 0 (opAt?_env (by decide +kernel)) rfl
  exact (hselector.trans hargument).ends
    (ends_revert (of_decide_eq_true rfl) (opAt?_env (by decide +kernel)))

/-! ## Executions -/

/-- **What the contract does**, by the first four bytes of the calldata. -/
def outcome (calldata : Bytes) : Outcome :=
  if selectorIn calldata = sum.selector.bytes then
    .returned (Word.ofUInt256 (wordAt calldata 36 + wordAt calldata 4)).bytes
  else if selectorIn calldata = fail.selector.bytes then
    .reverted (someErr.selector.bytes ++ (Word.ofUInt256 (wordAt calldata 4)).bytes)
  else .reverted []

/-- **On any calldata the contract does this and nothing else.** -/
theorem execute_code (calldata : Bytes) :
    ∃ steps, execute .standard code calldata = .ok ⟨outcome calldata, steps, []⟩ := by
  suffices hends : ∃ steps ≤ 10000000,
      Frame.initial.Ends (env calldata) steps (outcome calldata) [] by
    obtain ⟨steps, hsteps, h⟩ := hends
    exact ⟨steps, execute_of_ends (by decide) hsteps h⟩
  have hfirst : Frame.initial.Passes (env calldata) 9
      (state (if selectorIn calldata = sum.selector.bytes then 30 else 16)
        [selected calldata] .empty) := passes_selector.trans comparesAt_sum.passes
  unfold outcome
  by_cases hsum : selectorIn calldata = sum.selector.bytes
  · rw [if_pos hsum] at hfirst ⊢
    exact ⟨_, by decide, hfirst.ends (ends_sum _)⟩
  · rw [if_neg hsum] at hfirst ⊢
    have hsecond := hfirst.trans comparesAt_fail.passes
    by_cases hfail : selectorIn calldata = fail.selector.bytes
    · rw [if_pos hfail] at hsecond ⊢
      exact ⟨_, by decide, hsecond.ends (ends_fail _)⟩
    · rw [if_neg hfail] at hsecond ⊢
      exact ⟨_, by decide, hsecond.ends (ends_refusal _)⟩

/-- The same for queries. -/
theorem query_execute (known : List CustomError) (calldata : Bytes) :
    Query.execute (execute .standard) known code calldata
      = .ok (.ofOutcome known (outcome calldata)) := by
  obtain ⟨steps, h⟩ := execute_code calldata
  unfold Query.execute
  rw [h]

/-! ## Calls -/

section Calls

variable (selector : Selector)

theorem selectorIn_append (rest : Bytes) :
    selectorIn (selector.bytes ++ rest) = selector.bytes := by
  unfold selectorIn
  rw [List.append_assoc, List.take_left' selector.length_bytes]

/-- The word behind some bytes. -/
theorem wordAt_append {front : Bytes} {offset : Nat} (h : front.length = offset) (n : Nat)
    (rest : Bytes) :
    wordAt (front ++ ((Word.ofNat n).bytes ++ rest)) offset = BitVec.ofNat 256 n := by
  have hstretch := Row.stretch_ofBytes front (Word.ofNat n).bytes rest
  rw [(Word.ofNat n).length_bytes, h] at hstretch
  rw [wordAt, zeroExtended_toArray, hstretch, numberOfBytes_ofNat]

/-- The first argument. -/
theorem wordAt_four (n : Nat) (ns : List Nat) :
    wordAt (selector.bytes ++ words (n :: ns)) 4 = BitVec.ofNat 256 n :=
  wordAt_append selector.length_bytes n (words ns)

/-- The second argument. -/
theorem wordAt_thirtySix (m n : Nat) (ns : List Nat) :
    wordAt (selector.bytes ++ words (m :: n :: ns)) 36 = BitVec.ofNat 256 n := by
  have hlen : (selector.bytes ++ (Word.ofNat m).bytes).length = 36 := by
    rw [List.length_append, selector.length_bytes, (Word.ofNat m).length_bytes]
  have h := wordAt_append hlen n (words ns)
  rwa [List.append_assoc] at h

/-- Numbers of a word behind a selector. -/
theorem encodeBehind_words {ns : List Nat} (h : ∀ n ∈ ns, n < 2 ^ 256) :
    encodeBehind selector (ns.map (.uint 256)) (ns.map fun _ => .uint 256)
      = .ok (selector.bytes ++ words ns) := by
  unfold encodeBehind
  rw [encode_words h]

end Calls

/-- **Calling the first function returns the sum.** -/
theorem call_sum {a b : Nat} (ha : a < 2 ^ 256) (hb : b < 2 ^ 256) (known : List CustomError) :
    Query.call (execute .standard) known code sum [.uint 256 a, .uint 256 b]
      = .ok [.uint 256 ((a + b) % 2 ^ 256)] := by
  have hcalldata : sum.encodeCall [.uint 256 a, .uint 256 b]
      = .ok (sum.selector.bytes ++ words [a, b]) :=
    encodeBehind_words sum.selector
      (List.forall_mem_cons.mpr ⟨ha, List.forall_mem_singleton.mpr hb⟩)
  have hsum : Word.ofUInt256 (BitVec.ofNat 256 b + BitVec.ofNat 256 a)
      = Word.ofNat ((a + b) % 2 ^ 256) := by
    rw [Word.ofUInt256, BitVec.toNat_add, BitVec.toNat_ofNat, BitVec.toNat_ofNat, ← Nat.add_mod,
      Nat.add_comm]
  have houtcome : outcome (sum.selector.bytes ++ words [a, b])
      = .returned (words [(a + b) % 2 ^ 256]) := by
    rw [outcome, if_pos (selectorIn_append _ _), wordAt_four, wordAt_thirtySix, hsum,
      words_singleton]
  have hresult : sum.decodeResult (words [(a + b) % 2 ^ 256])
      = .ok [.uint 256 ((a + b) % 2 ^ 256)] := by
    have hencode := encode_words
      (List.forall_mem_singleton.mpr (Nat.mod_lt (a + b) (Nat.two_pow_pos 256)))
    exact decode_of_encode hencode List.prefix_rfl (fun hd => by cases hd)
  unfold Query.call
  rw [hcalldata]
  dsimp only
  rw [query_execute, houtcome]
  dsimp only [Answer.ofOutcome]
  rw [hresult]

/-- **Calling the second function** is answered by what its payload is
taken for. -/
theorem call_fail {x : Nat} (hx : x < 2 ^ 256) :
    ∃ payload, someErr.encodeRevert [.uint 256 x] = .ok payload ∧ payload.length = 36
      ∧ ∀ known, Query.call (execute .standard) known code fail [.uint 256 x]
        = .error (.reverted (.classify known none payload)) := by
  have hbound : ∀ n ∈ [x], n < 2 ^ 256 := List.forall_mem_singleton.mpr hx
  have hcalldata : fail.encodeCall [.uint 256 x] = .ok (fail.selector.bytes ++ words [x]) :=
    encodeBehind_words fail.selector hbound
  have hpayload : someErr.encodeRevert [.uint 256 x]
      = .ok (someErr.selector.bytes ++ words [x]) :=
    encodeBehind_words someErr.selector hbound
  have hword : Word.ofUInt256 (BitVec.ofNat 256 x) = Word.ofNat x := by
    rw [Word.ofUInt256, BitVec.toNat_ofNat, Nat.mod_eq_of_lt hx]
  have hne : fail.selector.bytes ≠ sum.selector.bytes := by decide +kernel
  have houtcome : outcome (fail.selector.bytes ++ words [x])
      = .reverted (someErr.selector.bytes ++ words [x]) := by
    rw [outcome, selectorIn_append, if_neg hne, if_pos rfl, wordAt_four, hword, words_singleton]
  refine ⟨_, hpayload, ?_, fun known => ?_⟩
  · rw [List.length_append, someErr.selector.length_bytes, words_singleton,
      (Word.ofNat x).length_bytes]
  · unfold Query.call
    rw [hcalldata]
    dsimp only
    rw [query_execute, houtcome]
    rfl

/-- **The contract answers as it is meant to**, whatever it is asked and
whatever errors it is known to raise. The sum wraps around. A failure is
recognized if the first of the known errors with the selector of `someErr`
is `someErr` itself, and is kept as a payload if there is none. And calldata
that start with neither selector, being completed by zeros where they are
short, are refused without a payload. -/
theorem answers : assemble directives = .ok code
    ∧ (∀ (a b : Nat) (known : List CustomError), a < 2 ^ 256 → b < 2 ^ 256 →
        Query.call (execute .standard) known code sum [.uint 256 a, .uint 256 b]
          = .ok [.uint 256 ((a + b) % 2 ^ 256)])
    ∧ (∀ (x : Nat) (known : List CustomError), x < 2 ^ 256 →
        known.find? (fun e => e.selector = someErr.selector) = some someErr →
        Query.call (execute .standard) known code fail [.uint 256 x]
          = .error (.reverted (.known someErr [.uint 256 x])))
    ∧ (∀ (x : Nat) (known : List CustomError), x < 2 ^ 256 →
        (∀ e ∈ known, e.selector ≠ someErr.selector) →
        ∃ payload, someErr.encodeRevert [.uint 256 x] = .ok payload
          ∧ Query.call (execute .standard) known code fail [.uint 256 x]
            = .error (.reverted (.unrecognized payload none)))
    ∧ ∀ (calldata : Bytes) (known : List CustomError),
        (calldata ++ Bytes.zeros 4).take 4 ≠ sum.selector.bytes →
        (calldata ++ Bytes.zeros 4).take 4 ≠ fail.selector.bytes →
        Query.execute (execute .standard) known code calldata
          = .ok (.reverted (.unrecognized [] none)) := by
  refine ⟨assemble_directives, fun a b known ha hb => call_sum ha hb known, ?_, ?_, ?_⟩
  · intro x known hx hknown
    obtain ⟨payload, hpayload, hlen, hcall⟩ := call_fail hx
    have hsize : payload.length + ([] : Bytes).length ≤ maxSize := by
      rw [hlen]
      decide
    have hclassify := Revert.classify_of_find? hpayload hsize hknown none
    rw [List.append_nil] at hclassify
    rw [hcall, hclassify]
  · intro x known hx hknown
    obtain ⟨payload, hpayload, -, hcall⟩ := call_fail hx
    have hclassify := Revert.classify_of_forall_ne hpayload [] hknown none
    rw [List.append_nil] at hclassify
    exact ⟨payload, hpayload, by rw [hcall, hclassify]⟩
  · intro calldata known hsum hfail
    have houtcome : outcome calldata = .reverted [] := by
      rw [outcome, selectorIn, if_neg hsum, if_neg hfail]
    rw [query_execute, houtcome]
    rfl

/-- The largest number and one come to zero. A failure with forty-two is
recognized among two errors, and kept if only another one is known. Three
bytes of a selector are refused. -/
theorem answers_wrapping : assemble directives = .ok code
    ∧ Query.call (execute .standard) [] code sum [.uint 256 (2 ^ 256 - 1), .uint 256 1]
      = .ok [.uint 256 0]
    ∧ Query.call (execute .standard) [.errorString, someErr] code fail [.uint 256 42]
      = .error (.reverted (.known someErr [.uint 256 42]))
    ∧ (∃ payload, someErr.encodeRevert [.uint 256 42] = .ok payload
      ∧ Query.call (execute .standard) [.panic] code fail [.uint 256 42]
        = .error (.reverted (.unrecognized payload none)))
    ∧ Query.execute (execute .standard) [someErr] code [0xca, 0xd0, 0x89]
      = .ok (.reverted (.unrecognized [] none)) := by
  obtain ⟨hcode, hsum, hfail, hother, hrefused⟩ := answers
  exact ⟨hcode, hsum (2 ^ 256 - 1) 1 [] (by decide) (by decide),
    hfail 42 _ (by decide) (by decide +kernel), hother 42 _ (by decide) (by decide +kernel),
    hrefused _ _ (by decide +kernel) (by decide +kernel)⟩

end SumOrFail

end EthCall
