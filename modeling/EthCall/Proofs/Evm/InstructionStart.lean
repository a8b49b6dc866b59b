import EthCall.Evm.Machine

/-!
# Where instructions start

Read from its first byte on, code falls into instructions: each is one
byte and the bytes that it pushes. `InstructionStart` is that reading, and
it says nothing of how an execution goes. The scan for places that a jump
may lead to passes over the code once, byte by byte. What ties the two is
the number of bytes that the scan still has to skip: where it is zero, and
only there, an instruction starts (`skip_scanned_eq_zero_iff`), and from
there on so many bytes one starts next (`instructionStart_add_skip`).

So the places the scan marks are the instructions that mark a place
(`getD_jumpTargets`), and never a pushed byte that looks like one.
-/

namespace EthCall.Evm

/-- **A place where an instruction starts**: the first byte of the code,
or the place behind an instruction and all that it pushes. -/
inductive InstructionStart (code : Bytes) : Nat → Prop where
  /-- The first instruction. -/
  | first : InstructionStart code 0
  /-- The next instruction. -/
  | next {p : Nat} {byte : UInt8} (hp : InstructionStart code p)
    (hbyte : code[p]? = some byte) : InstructionStart code (p + 1 + pushSize byte)

/-- **A place that a jump may lead to**: an instruction that marks it. -/
def IsJumpTarget (code : Bytes) (d : Nat) : Prop :=
  d < code.length ∧ InstructionStart code d ∧ code[d]? = some jumpDestByte

/-! ## The scan under way -/

/-- The scan when it has passed `i` bytes. -/
def scanned (code : Bytes) (i : Nat) : JumpScan :=
  (code.take i).foldl JumpScan.pass ⟨0, #[]⟩

theorem scanned_succ {code : Bytes} {i : Nat} {byte : UInt8} (h : code[i]? = some byte) :
    scanned code (i + 1) = (scanned code i).pass byte := by
  unfold scanned
  rw [List.take_add_one, h, Option.toList_some, List.foldl_append]
  rfl

/-- All code is passed. -/
theorem jumpTargets_eq (code : Bytes) : jumpTargets code = (scanned code code.length).marks := by
  unfold jumpTargets scanned
  rw [List.take_length]

variable {code : Bytes}

/-- While bytes are to be skipped, each byte is one of them. -/
theorem skip_scanned_succ {i : Nat} {byte : UInt8} (h : code[i]? = some byte) :
    (scanned code (i + 1)).skip
      = if (scanned code i).skip = 0 then pushSize byte else (scanned code i).skip - 1 := by
  rw [scanned_succ h]
  unfold JumpScan.pass
  split
  case h_1 skip hskip =>
    rw [hskip, if_neg (Nat.succ_ne_zero skip)]
    rfl
  case h_2 hskip =>
    rw [hskip, if_pos rfl]

/-- **Behind the bytes that are still to be skipped an instruction
starts.** -/
theorem instructionStart_add_skip {i : Nat} (hi : i ≤ code.length) :
    InstructionStart code (i + (scanned code i).skip) := by
  induction i with
  | zero => exact .first
  | succ i ih =>
    have hlt : i < code.length := hi
    have hbyte := List.getElem?_eq_getElem hlt
    have hstart := ih (Nat.le_of_lt hlt)
    rw [skip_scanned_succ hbyte]
    split
    case isTrue hskip =>
      rw [hskip, Nat.add_zero] at hstart
      exact .next hstart hbyte
    case isFalse hskip =>
      have hplace : i + 1 + ((scanned code i).skip - 1) = i + (scanned code i).skip := by omega
      rw [hplace]
      exact hstart

/-- Skipping goes down one by one. -/
theorem skip_scanned_add {i j : Nat} (hj : j ≤ (scanned code i).skip)
    (hlen : i + j ≤ code.length) :
    (scanned code (i + j)).skip = (scanned code i).skip - j := by
  induction j with
  | zero => rfl
  | succ j ih =>
    have hbyte := List.getElem?_eq_getElem (l := code) (i := i + j) (by omega)
    have hrest := ih (by omega) (by omega)
    show (scanned code (i + j + 1)).skip = _
    rw [skip_scanned_succ hbyte, hrest, if_neg (by omega)]
    omega

/-- **An instruction starts where nothing is to be skipped**, and nowhere
else. -/
theorem skip_scanned_eq_zero_iff {i : Nat} (hi : i ≤ code.length) :
    (scanned code i).skip = 0 ↔ InstructionStart code i := by
  constructor
  · intro h
    have hstart := instructionStart_add_skip hi
    rwa [h] at hstart
  · intro h
    induction h with
    | first => rfl
    | @next p byte _ hbyte ih =>
      -- the scan takes up the pushed bytes at the instruction and is through with them here
      have hskip : (scanned code (p + 1)).skip = pushSize byte := by
        rw [skip_scanned_succ hbyte, if_pos (ih (by omega))]
      rw [skip_scanned_add (Nat.le_of_eq hskip.symm) hi, hskip, Nat.sub_self]

/-- A byte is no instruction of the code if the scan meets it only among
the bytes that it skips. -/
theorem forall_instructionStart_ne {byte : UInt8}
    (h : ∀ p < code.length, (scanned code p).skip = 0 → code[p]? ≠ some byte) (p : Nat)
    (hp : InstructionStart code p) : code[p]? ≠ some byte := by
  intro heq
  have hlt := (List.getElem?_eq_some_iff.mp heq).1
  exact h p hlt ((skip_scanned_eq_zero_iff (Nat.le_of_lt hlt)).mpr hp) heq

/-- **No instruction starts among the bytes that one pushes.** -/
theorem InstructionStart.not_pushed {p j : Nat} {byte : UInt8} (h : InstructionStart code p)
    (hbyte : code[p]? = some byte) (hj : j < pushSize byte) (hlen : p + 1 + j ≤ code.length) :
    ¬ InstructionStart code (p + 1 + j) := by
  intro hstart
  have hzero : (scanned code (p + 1 + j)).skip = 0 := (skip_scanned_eq_zero_iff hlen).mpr hstart
  have hskip : (scanned code (p + 1)).skip = pushSize byte := by
    rw [skip_scanned_succ hbyte, if_pos ((skip_scanned_eq_zero_iff (by omega)).mpr h)]
  rw [skip_scanned_add (by omega) hlen, hskip] at hzero
  omega

/-! ## The marks -/

/-- There is a mark for each byte passed. -/
theorem size_marks_scanned {j : Nat} (hj : j ≤ code.length) :
    (scanned code j).marks.size = j := by
  induction j with
  | zero => rfl
  | succ j ih =>
    rw [scanned_succ (List.getElem?_eq_getElem hj)]
    unfold JumpScan.pass
    split <;> rw [Array.size_push, ih (Nat.le_of_lt hj)]

/-- The mark of a byte is settled when it is passed. -/
theorem getElem?_marks_scanned {j : Nat} (hj : j ≤ code.length) (i : Nat) :
    (scanned code j).marks[i]?
      = if i < j then some (decide ((scanned code i).skip = 0 ∧ code[i]? = some jumpDestByte))
        else none := by
  induction j with
  | zero => rfl
  | succ j ih =>
    have hlt : j < code.length := hj
    have hbyte := List.getElem?_eq_getElem hlt
    have hmark : (scanned code (j + 1)).marks = (scanned code j).marks.push
        (decide ((scanned code j).skip = 0 ∧ code[j]? = some jumpDestByte)) := by
      rw [scanned_succ hbyte, hbyte]
      unfold JumpScan.pass
      split
      case h_1 skip hskip => simp [hskip]
      case h_2 hskip =>
        rw [hskip]
        simp [Bool.beq_eq_decide_eq]
    rw [hmark, Array.getElem?_push, size_marks_scanned (Nat.le_of_lt hlt), ih (Nat.le_of_lt hlt)]
    rcases Nat.lt_trichotomy i j with hij | rfl | hij
    · rw [if_neg (Nat.ne_of_lt hij), if_pos hij, if_pos (Nat.lt_succ_of_lt hij)]
    · rw [if_pos rfl, if_pos (Nat.lt_succ_self i)]
    · rw [if_neg (Nat.ne_of_gt hij), if_neg (Nat.not_lt_of_gt hij),
        if_neg (Nat.not_lt_of_ge hij)]

/-- **The scan marks the places that a jump may lead to**, and no
others. -/
theorem getD_jumpTargets (code : Bytes) (d : Nat) :
    (jumpTargets code).getD d false = true ↔ IsJumpTarget code d := by
  rw [jumpTargets_eq, Array.getD_eq_getD_getElem?, getElem?_marks_scanned (Nat.le_refl _)]
  unfold IsJumpTarget
  by_cases hd : d < code.length
  · rw [if_pos hd, Option.getD_some, decide_eq_true_iff,
      skip_scanned_eq_zero_iff (Nat.le_of_lt hd)]
    exact (and_iff_right hd).symm
  · rw [if_neg hd]
    exact iff_of_false Bool.false_ne_true (fun h => hd h.1)

end EthCall.Evm
