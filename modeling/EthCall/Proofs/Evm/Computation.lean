import EthCall.Proofs.Evm.Course
import EthCall.Proofs.Evm.TrappingArithmetic
import Mathlib

/-!
# Instructions that compute

An instruction that computes takes its operands from the stack and puts
one number in their place (`Op.Puts`). Which number that is can be said
without the machine, in integers that have no bound: every number on the
stack is read as an integer, without a sign or in two's complement
(`unsigned`, `signed`), and so is the result.

A machine does not have these integers. It has numbers of 256 bits, and
some of its operations fail for some of them. So two things are asked of a
result (`BinaryOp.Computes`, `TernaryOp.Computes`): it is what the step
puts on the stack, and it is what the operations of
`EthCall.Proofs.Evm.TrappingArithmetic` come to, one after the other.

The instructions of this module read numbers without a sign. Sums,
differences, products and powers are reduced modulo `2 ^ 256`. What is
divided by an operand is not reduced before, neither a sum nor a product,
and the quotient or the remainder is then small enough to be a result
as it is.
-/

namespace EthCall.Evm

/-! ## Numbers as integers -/

/-- **A number, read without a sign.** -/
def unsigned (x : UInt256) : Nat := (Word.ofUInt256 x).toUnsigned

/-- **A number, read in two's complement.** -/
def signed (x : UInt256) : Int := (Word.ofUInt256 x).toSigned

theorem unsigned_eq (x : UInt256) : unsigned x = x.toNat :=
  Word.toUnsigned_ofNat_of_lt x.isLt

theorem unsigned_lt (x : UInt256) : unsigned x < powerOfTwo 256 :=
  Word.toUnsigned_lt _

/-! ## Results -/

/-- **An instruction puts a number in the place of its operands.** Wherever
it is next, with the operands at the top of a stack that is not too deep,
and one more instruction is allowed, this is all that the step does. -/
def Op.Puts (op : Op) (operands : List UInt256) (x : UInt256) : Prop :=
  ∀ (settings : Settings) (code calldata : Bytes) (m : Machine) (rest : List UInt256)
    (steps : Nat), m.op? code = some op → m.frame.stack = operands ++ rest →
    m.frame.stack.length ≤ settings.stackLimit.toNat →
    m.charge? (Env.new settings code calldata) = some steps →
    m.step (Env.new settings code calldata)
      = .running ⟨{ m.frame.advance with stack := x :: rest }, steps⟩

/-- It does so if its effect is to push the number where the operands
were. The operands have left room for it. -/
theorem Op.puts_of_perform {op : Op} {a x : UInt256} {operands : List UInt256}
    (h : ∀ env gas byte (f : Frame) rest, f.stack = a :: operands ++ rest →
      f.perform env gas byte op = { f with stack := rest }.push env x) :
    op.Puts (a :: operands) x := by
  intro settings code calldata m rest steps hop hstack hdepth hsteps
  obtain ⟨byte, hbyte, hop⟩ := Option.bind_eq_some_iff.mp hop
  have hroom : rest.length < (Env.new settings code calldata).settings.stackLimit.toNat := by
    rw [hstack, List.cons_append, List.length_cons, List.length_append] at hdepth
    exact Nat.lt_of_le_of_lt (Nat.le_add_left _ _) hdepth
  rw [Machine.step_eq_perform (List.getElem?_toArray.trans hbyte) hop hsteps,
    h _ _ _ m.frame.advance rest hstack,
    Frame.push_of_lt (f := { m.frame.advance with stack := rest }) hroom]
  rfl

/-- **A binary instruction computes a number** from the top of the stack and
the number below it. -/
structure BinaryOp.Computes (op : BinaryOp) (a b x : UInt256) : Prop where
  /-- The step puts it on the stack. -/
  puts : Op.Puts (.binary op) [a, b] x
  /-- The operations for it come to it, and none of them fails. -/
  operations : Trapping.binary op a b = .ok x

/-- **A ternary instruction computes a number**, likewise. -/
structure TernaryOp.Computes (op : TernaryOp) (a b n x : UInt256) : Prop where
  /-- The step puts it on the stack. -/
  puts : Op.Puts (.ternary op) [a, b, n] x
  /-- The operations for it come to it, and none of them fails. -/
  operations : Trapping.ternary op a b n = .ok x

/-- A binary instruction computes what it stands for. -/
theorem BinaryOp.computes_apply (op : BinaryOp) (a b : UInt256) :
    op.Computes a b (op.apply a b) where
  puts := Op.puts_of_perform fun _ _ _ _ _ hstack => Frame.pop2_of_stack hstack _
  operations := Trapping.binary_eq op a b

theorem TernaryOp.computes_apply (op : TernaryOp) (a b n : UInt256) :
    op.Computes a b n (op.apply a b n) where
  puts := Op.puts_of_perform fun _ _ _ _ _ hstack => Frame.pop3_of_stack hstack _
  operations := Trapping.ternary_eq op a b n

/-- **What a binary instruction gives**: a number with this unsigned
reading. -/
def BinaryOp.Gives (op : BinaryOp) (a b : UInt256) (z : Int) : Prop :=
  ∃ x, op.Computes a b x ∧ unsigned x = z

/-- What a ternary instruction gives. -/
def TernaryOp.Gives (op : TernaryOp) (a b n : UInt256) (z : Int) : Prop :=
  ∃ x, op.Computes a b n x ∧ unsigned x = z

section Gives

variable {a b n : UInt256}

theorem BinaryOp.gives_of_toNat (op : BinaryOp) {z : Nat} (h : (op.apply a b).toNat = z) :
    op.Gives a b z :=
  ⟨_, op.computes_apply a b, congrArg Nat.cast ((unsigned_eq _).trans h)⟩

theorem TernaryOp.gives_of_toNat (op : TernaryOp) {z : Nat} (h : (op.apply a b n).toNat = z) :
    op.Gives a b n z :=
  ⟨_, op.computes_apply a b n, congrArg Nat.cast ((unsigned_eq _).trans h)⟩

end Gives

/-! ## Numbers without a sign -/

section Modulo

variable (a b n : UInt256)

theorem add_gives : BinaryOp.add.Gives a b ((unsigned a + unsigned b) % powerOfTwo 256) := by
  rw [unsigned_eq, unsigned_eq]
  exact BinaryOp.add.gives_of_toNat (BitVec.toNat_add a b)

theorem mul_gives : BinaryOp.mul.Gives a b (unsigned a * unsigned b % powerOfTwo 256) := by
  rw [unsigned_eq, unsigned_eq]
  exact BinaryOp.mul.gives_of_toNat (BitVec.toNat_mul a b)

/-- A difference below zero is one modulus too small. -/
theorem sub_gives : BinaryOp.sub.Gives a b ((unsigned a - unsigned b) % powerOfTwo 256) := by
  have hb := unsigned_lt b
  rw [unsigned_eq] at hb
  have hsub : ((powerOfTwo 256 - b.toNat + a.toNat : Nat) : Int)
      = (a.toNat - b.toNat : Int) + powerOfTwo 256 := by omega
  have hgives := BinaryOp.sub.gives_of_toNat (BitVec.toNat_sub a b)
  rw [← powerOfTwo_eq, Int.natCast_emod, hsub, Int.add_emod_right] at hgives
  rwa [unsigned_eq, unsigned_eq]

/-- The quotient by zero is zero. -/
theorem div_gives :
    BinaryOp.div.Gives a b (if b = 0 then 0 else unsigned a / unsigned b) := by
  rw [unsigned_eq, unsigned_eq]
  split
  case isTrue h =>
    subst h
    exact BinaryOp.div.gives_of_toNat (congrArg BitVec.toNat BitVec.udiv_zero)
  case isFalse => exact BinaryOp.div.gives_of_toNat BitVec.toNat_udiv

/-- So is the remainder. -/
theorem mod_gives :
    BinaryOp.mod.Gives a b (if b = 0 then 0 else unsigned a % unsigned b) := by
  rw [unsigned_eq, unsigned_eq]
  split
  case isTrue h => exact BinaryOp.mod.gives_of_toNat (congrArg BitVec.toNat (if_pos h))
  case isFalse h =>
    exact BinaryOp.mod.gives_of_toNat
      ((congrArg BitVec.toNat (if_neg h)).trans BitVec.toNat_umod)

/-- A power is reduced at each step, which does not show. -/
theorem exp_gives : BinaryOp.exp.Gives a b (unsigned a ^ unsigned b % powerOfTwo 256) := by
  rw [unsigned_eq, unsigned_eq]
  have hgives := BinaryOp.exp.gives_of_toNat (a := a) (b := b)
    ((congrArg BitVec.toNat (Trapping.power_eq a b.toNat)).trans (BitVec.toNat_ofNat _ _))
  rwa [Int.natCast_emod, Int.natCast_pow] at hgives

variable {a b n}

/-- What is left of a number by a modulus need not be reduced again. -/
theorem toNat_remainder (m : Nat) (n : UInt256) :
    (if n = 0 then 0 else BitVec.ofNat 256 (m % n.toNat) : UInt256).toNat
      = if n = 0 then 0 else m % n.toNat := by
  split
  case isTrue => rfl
  case isFalse h =>
    have hpos : 0 < n.toNat := Nat.pos_of_ne_zero fun hzero => h (BitVec.eq_of_toNat_eq hzero)
    rw [BitVec.toNat_ofNat]
    exact Nat.mod_eq_of_lt (Nat.lt_trans (Nat.mod_lt _ hpos) n.isLt)

variable (a b n)

theorem addMod_gives :
    TernaryOp.addMod.Gives a b n (if n = 0 then 0 else (unsigned a + unsigned b) % unsigned n) := by
  have hgives := TernaryOp.addMod.gives_of_toNat (a := a) (b := b)
    (toNat_remainder (a.toNat + b.toNat) n)
  rw [unsigned_eq, unsigned_eq, unsigned_eq]
  rwa [Nat.cast_ite] at hgives

theorem mulMod_gives :
    TernaryOp.mulMod.Gives a b n (if n = 0 then 0 else unsigned a * unsigned b % unsigned n) := by
  have hgives := TernaryOp.mulMod.gives_of_toNat (a := a) (b := b)
    (toNat_remainder (a.toNat * b.toNat) n)
  rw [unsigned_eq, unsigned_eq, unsigned_eq]
  rwa [Nat.cast_ite] at hgives

end Modulo

/-- **What is computed without a sign is what integers give.** For all
numbers,

* a sum, a difference, a product and a power are those of the integers
  modulo `2 ^ 256`, and zero to the power of zero is one;
* a quotient and a remainder are those of the integers, and zero for a zero
  divisor;
* a sum and a product that are taken modulo an operand are those of the
  integers until then, and zero for a zero modulus. -/
theorem computes_as_integers (a b n : UInt256) :
    BinaryOp.add.Gives a b ((unsigned a + unsigned b) % powerOfTwo 256)
      ∧ BinaryOp.sub.Gives a b ((unsigned a - unsigned b) % powerOfTwo 256)
      ∧ BinaryOp.mul.Gives a b (unsigned a * unsigned b % powerOfTwo 256)
      ∧ BinaryOp.div.Gives a b (if b = 0 then 0 else unsigned a / unsigned b)
      ∧ BinaryOp.mod.Gives a b (if b = 0 then 0 else unsigned a % unsigned b)
      ∧ TernaryOp.addMod.Gives a b n
        (if n = 0 then 0 else (unsigned a + unsigned b) % unsigned n)
      ∧ TernaryOp.mulMod.Gives a b n
        (if n = 0 then 0 else unsigned a * unsigned b % unsigned n)
      ∧ BinaryOp.exp.Gives a b (unsigned a ^ unsigned b % powerOfTwo 256)
      ∧ BinaryOp.exp.Gives 0 0 1 :=
  ⟨add_gives a b, sub_gives a b, mul_gives a b, div_gives a b, mod_gives a b,
    addMod_gives a b n, mulMod_gives a b n, exp_gives a b, exp_gives 0 0⟩

/-- The sum of the largest number and itself is a multiple of three, and is
no such multiple once it is reduced. -/
theorem computes_as_integers_unreduced :
    ∃ x, unsigned x = 0
      ∧ Machine.step (Env.new .standard [0x08] [])
          ⟨{ Frame.initial with stack := [BitVec.allOnes 256, BitVec.allOnes 256, 3, 7] }, 0⟩
        = .running ⟨{ Frame.initial with pc := 1, stack := [x, 7] }, 1⟩ := by
  obtain ⟨-, -, -, -, -, ⟨x, hx, hz⟩, -⟩ :=
    computes_as_integers (BitVec.allOnes 256) (BitVec.allOnes 256) 3
  have hzero : (if (3 : UInt256) = 0 then 0 else ((unsigned (BitVec.allOnes 256) : Int)
      + unsigned (BitVec.allOnes 256)) % unsigned 3) = 0 := by decide +kernel
  refine ⟨x, Int.ofNat.inj (hz.trans hzero), ?_⟩
  exact hx.puts .standard [0x08] [] _ [7] 1 rfl rfl (by decide) rfl

end EthCall.Evm
