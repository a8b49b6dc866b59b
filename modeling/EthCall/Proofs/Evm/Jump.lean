import EthCall.Proofs.Evm.Course
import EthCall.Proofs.Evm.InstructionStart

/-!
# Jumps

The bytes that a push pushes are data, and some of them look like
instructions. An execution never takes them for one. It moves on from an
instruction to the next, so the only way in would be a jump; and a jump is
refused everywhere but at the places that the scan of the code has
marked, which are instructions (`EthCall.Proofs.Evm.InstructionStart`).

Where a jump leads is so told by the code alone. The scan need not be
known, and neither that a destination is compared as a number of 256 bits
while a position is a size.
-/

namespace EthCall.Evm

namespace Frame

variable {settings : Settings} {code calldata : Bytes} {dest : UInt256}

/-- A jump goes on at a place it may lead to. -/
theorem jumpTo_of_isJumpTarget (h : IsJumpTarget code dest.toNat) (f : Frame) :
    f.jumpTo (Env.new settings code calldata) dest = .next { f with pc := dest.toNat } :=
  if_pos ((getD_jumpTargets code dest.toNat).mpr h)

/-- A jump is refused anywhere else. -/
theorem jumpTo_of_not_isJumpTarget (h : ¬ IsJumpTarget code dest.toNat) (f : Frame) :
    f.jumpTo (Env.new settings code calldata) dest
      = f.halt (.invalidJump (min dest.toNat maxSize)) :=
  if_neg (mt (getD_jumpTargets code dest.toNat).mp h)

end Frame

namespace Machine

/-- **The jump that is next**: an instruction to jump, or one to jump on a
condition that holds, with its operands. -/
inductive JumpsNext (code : Bytes) (m : Machine) : (dest : UInt256) → List UInt256 → Prop where
  /-- In any case. -/
  | jump {dest : UInt256} {rest : List UInt256} (hbyte : code[m.frame.pc]? = some 0x56)
    (hstack : m.frame.stack = dest :: rest) : JumpsNext code m dest rest
  /-- On a condition. -/
  | jumpIf {dest condition : UInt256} {rest : List UInt256}
    (hbyte : code[m.frame.pc]? = some 0x57)
    (hstack : m.frame.stack = dest :: condition :: rest) (hcondition : condition ≠ 0) :
    JumpsNext code m dest rest

variable {settings : Settings} {code calldata : Bytes}

/-- A step leads from the start of an instruction to the start of one. -/
theorem instructionStart_pc_step {m : Machine} (h : InstructionStart code m.frame.pc) :
    InstructionStart code (m.step (Env.new settings code calldata)).machine.frame.pc := by
  rcases pc_step (Env.new settings code calldata) m with heq | ⟨byte, hbyte, heq | htarget⟩
  · exact heq ▸ h
  · exact heq ▸ .next h (List.getElem?_toArray.symm.trans hbyte)
  · exact ((getD_jumpTargets code _).mp htarget).2.1

/-- **Every position is the start of an instruction**, or of nothing where
the code has ended. -/
theorem instructionStart_pc_after (settings : Settings) (code calldata : Bytes) (n : Nat) :
    InstructionStart code (after (Env.new settings code calldata) n).frame.pc := by
  induction n with
  | zero => exact .first
  | succ n ih => exact instructionStart_pc_step ih

/-- The step of a jump asks for the mark of its destination. -/
theorem step_of_jumpsNext {m : Machine} {dest : UInt256} {rest : List UInt256} {steps : Nat}
    (h : m.JumpsNext code dest rest)
    (hsteps : m.charge? (Env.new settings code calldata) = some steps) :
    m.step (Env.new settings code calldata)
      = ({ m.frame.advance with stack := rest }.jumpTo (Env.new settings code calldata)
        dest).progress steps := by
  cases h with
  | jump hbyte hstack =>
    have hop : Op.ofByte? 0x56 = some .jump := rfl
    rw [step_eq (List.getElem?_toArray.trans hbyte) hsteps, Frame.dispatch, hop]
    exact congrArg (Effect.progress steps)
      (Frame.pop_of_stack (f := m.frame.advance) hstack fun dest f => f.jumpTo _ dest)
  | jumpIf hbyte hstack hcondition =>
    have hop : Op.ofByte? 0x57 = some .jumpIf := rfl
    rw [step_eq (List.getElem?_toArray.trans hbyte) hsteps, Frame.dispatch, hop]
    refine congrArg (Effect.progress steps) ?_
    show Frame.pop2 _ _ = _
    rw [Frame.pop2_of_stack (f := m.frame.advance) hstack, if_neg hcondition]

/-- **An execution stays on the instructions of its code.** Every position
it comes to is the start of one, and a jump leads to its destination if
that is an instruction which marks it, and is refused otherwise. -/
theorem executes_instructions (settings : Settings) (code calldata : Bytes) :
    (∀ n, InstructionStart code (after (Env.new settings code calldata) n).frame.pc)
      ∧ ∀ (m : Machine) (dest : UInt256) (rest : List UInt256) (steps : Nat),
        m.JumpsNext code dest rest →
        m.charge? (Env.new settings code calldata) = some steps →
        (IsJumpTarget code dest.toNat →
          m.step (Env.new settings code calldata)
            = .running ⟨{ m.frame with pc := dest.toNat, stack := rest }, steps⟩)
        ∧ (¬ IsJumpTarget code dest.toNat →
          m.step (Env.new settings code calldata)
            = .ended (.halted (.invalidJump (min dest.toNat maxSize)))
              ⟨{ m.frame with pc := m.frame.pc + 1, stack := rest }, steps⟩) := by
  refine ⟨instructionStart_pc_after settings code calldata, ?_⟩
  intro m dest rest steps hjump hsteps
  rw [step_of_jumpsNext hjump hsteps]
  constructor
  · intro htarget
    rw [Frame.jumpTo_of_isJumpTarget htarget]
    rfl
  · intro htarget
    rw [Frame.jumpTo_of_not_isJumpTarget htarget]
    rfl

/-- A jump to `dest`, then a push of a byte that looks like a mark, which
stands at 4, and then a mark, which stands at 5. -/
def markedCode (dest : UInt8) : Bytes := [0x60, dest, 0x56, 0x60, 0x5b, 0x5b]

/-- The jump goes on at the mark and is refused at the pushed byte. -/
theorem executes_instructions_marked :
    (after (Env.new .standard (markedCode 5) []) 1).step (Env.new .standard (markedCode 5) [])
        = .running ⟨{ Frame.initial with pc := 5 }, 2⟩
      ∧ (after (Env.new .standard (markedCode 4) []) 1).step (Env.new .standard (markedCode 4) [])
        = .ended (.halted (.invalidJump 4)) ⟨{ Frame.initial with pc := 3 }, 2⟩ :=
  ⟨((executes_instructions .standard (markedCode 5) []).2 _ 5 [] 2
      (.jump (by decide +kernel) (by decide +kernel)) (by decide +kernel)).1
      ((getD_jumpTargets _ _).mp (by decide +kernel)),
    ((executes_instructions .standard (markedCode 4) []).2 _ 4 [] 2
      (.jump (by decide +kernel) (by decide +kernel)) (by decide +kernel)).2
      (mt (getD_jumpTargets _ _).mpr (by decide +kernel))⟩

end Machine

end EthCall.Evm
