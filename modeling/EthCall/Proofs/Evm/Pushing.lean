import EthCall.Proofs.Evm.Emission
import EthCall.Proofs.Evm.Number
import EthCall.Proofs.Evm.Passage

/-!
# Pushes emitted and carried out

The assembler writes a number as a push, and the machine reads it back.
They do not count alike. The assembler drops the zeros in front of a word
and takes the instruction from how many bytes are left; the machine takes
as many bytes as the instruction says and reads zeros where the code has
none. What joins them is what the code has from a place on
(`Machine.step_push`): it is read as if it were code of its own, with zeros
behind it.

So a push that stands in full gives its number, and one that is cut gives
the number with zeros for the bytes that are missing
(`pushes_what_is_emitted`). No shorter push gives the number of a word, as
the bytes left are as few as hold it (`Bytes.pow_le_toNat`).
-/

namespace EthCall

namespace Bytes

/-! ## Leading zeros -/

/-- **Without leading zeros there are as few bytes as hold the number.** -/
theorem pow_le_toNat {bs : Bytes} {n : Nat} (h : n < (dropLeadingZeros bs).length) :
    256 ^ n ≤ toNat bs := by
  rw [← toNat_dropLeadingZeros]
  cases hdrop : dropLeadingZeros bs with
  | nil =>
    rw [hdrop] at h
    exact absurd h (Nat.not_lt_zero n)
  | cons b rest =>
    rw [hdrop] at h
    have hb : (b == 0) = false := by
      unfold dropLeadingZeros at hdrop
      have hhead := List.head_dropWhile_not (· == 0) (l := bs) (hdrop ▸ List.cons_ne_nil b rest)
      simpa only [hdrop, List.head_cons] using hhead
    have hpos : 1 ≤ b.toNat := by
      refine Nat.pos_of_ne_zero fun hzero => ?_
      exact absurd (UInt8.toNat_inj.mp (hzero.trans UInt8.toNat_zero.symm)) (by simpa using hb)
    rw [toNat_cons]
    calc 256 ^ n ≤ 256 ^ rest.length :=
          Nat.pow_le_pow_right (by decide) (Nat.le_of_lt_succ h)
      _ ≤ b.toNat * 256 ^ rest.length := Nat.le_mul_of_pos_left _ hpos
      _ ≤ _ := Nat.le_add_right _ _

end Bytes

namespace Evm

/-! ## Code from a place on -/

/-- **Some bytes stand in the code** from a place on. -/
def Env.StandsAt (env : Env) (pc : Nat) (bs : Bytes) : Prop :=
  bs <+: env.code.toList.drop pc

/-- Code that is read from a place on is read as code of its own. -/
theorem zeroExtended_eq_take (code : Array UInt8) (pc n : Nat) :
    zeroExtended code pc n = (code.toList.drop pc ++ Bytes.zeros n).take n := by
  rw [← zeroExtended_zero]
  unfold zeroExtended
  refine List.map_congr_left fun i _ => ?_
  simp [Array.getD_eq_getD_getElem?]

namespace Env

variable {env : Env} {pc : Nat} {byte : UInt8} {bs as rest : Bytes}

/-- Of bytes that stand one behind the other each stand in the code. -/
theorem StandsAt.split (h : env.StandsAt pc (as ++ bs)) :
    env.StandsAt pc as ∧ env.StandsAt (pc + as.length) bs := by
  obtain ⟨rest, hcode⟩ := h
  rw [List.append_assoc] at hcode
  refine ⟨⟨bs ++ rest, hcode⟩, rest, ?_⟩
  rw [← List.drop_drop, ← hcode, List.drop_left]

/-- The first byte of what is left of the code is the next instruction. -/
theorem opAt?_of_drop (h : env.code.toList.drop pc = byte :: rest) :
    env.opAt? pc = Op.ofByte? byte := by
  have hbyte : env.code[pc]? = some byte := by
    rw [← Array.getElem?_toList, ← List.head?_drop, h]
    rfl
  rw [opAt?, hbyte]
  rfl

theorem StandsAt.opAt? (h : env.StandsAt pc (byte :: rest)) :
    env.opAt? pc = Op.ofByte? byte := by
  obtain ⟨behind, hcode⟩ := h
  exact opAt?_of_drop hcode.symm

end Env

/-- The first byte of a push is one. -/
theorem ofByte?_pushOf {n : Nat} (h : n ≤ 32) :
    Op.ofByte? (UInt8.ofNat (0x5f + n)) = some (.push n) := by
  have hall : ∀ n : Fin 33, Op.ofByte? (UInt8.ofNat (0x5f + n)) = some (.push n) := by
    decide +kernel
  exact hall ⟨n, Nat.lt_succ_of_le h⟩

/-! ## Pushing -/

namespace Machine

variable {env : Env} {m : Machine}

/-- **The machine that a push leaves behind**, one instruction of `size`
bytes later. -/
def pushing (m : Machine) (size : Nat) (x : UInt256) : Machine :=
  ⟨{ m.frame with pc := m.frame.pc + size, stack := x :: m.frame.stack }, m.steps + 1⟩

/-- **What a push does**, wherever the code ends. -/
theorem step_push {n : Nat} (hop : env.opAt? m.frame.pc = some (.push n))
    (hsteps : m.steps < env.settings.stepLimit.toNat)
    (hroom : m.frame.stack.length < env.settings.stackLimit.toNat) :
    m.step env = .running (m.pushing (n + 1) (numberOfBytes
      ((env.code.toList.drop (m.frame.pc + 1) ++ Bytes.zeros n).take n))) := by
  have hperform (gas : Nat) (byte : UInt8) : m.frame.advance.perform env gas byte (.push n)
      = .next { m.frame with
        pc := m.frame.pc + 1 + n
        stack := numberOfBytes (zeroExtended env.code (m.frame.pc + 1) n) :: m.frame.stack } :=
    Frame.push_of_lt (f := { m.frame with pc := m.frame.pc + 1 + n }) hroom _
  rw [Nat.add_assoc, Nat.add_comm 1 n, zeroExtended_eq_take] at hperform
  exact Frame.step_of_perform hop hperform hsteps

/-- The same for the bytes of a push of which all or some stand in the
code. -/
theorem step_pushOf {imm tail : Bytes} (hlen : imm.length ≤ 32)
    (hcode : env.code.toList.drop m.frame.pc = UInt8.ofNat (0x5f + imm.length) :: tail)
    (hsteps : m.steps < env.settings.stepLimit.toNat)
    (hroom : m.frame.stack.length < env.settings.stackLimit.toNat) :
    m.step env = .running (m.pushing (pushOf imm).length (numberOfBytes
      ((tail ++ Bytes.zeros imm.length).take imm.length))) := by
  have hop := Env.opAt?_of_drop hcode
  rw [ofByte?_pushOf hlen] at hop
  rw [step_push hop hsteps hroom, ← List.drop_drop, hcode]
  rfl

/-- Behind the end of the code the execution ends. -/
theorem run_of_size_le (h : env.code.size ≤ m.frame.pc) :
    m.run env = .ok ⟨.returned [], m.steps, m.frame.logs.toList⟩ := by
  have hstep : m.step env = .ended (.returned []) m := by
    unfold step
    rw [Array.getElem?_eq_none h]
  exact run_of_ended hstep

end Machine

/-- **Bytes that push a number.** Wherever they stand and whatever the
machine that comes to them, if it has a step and a place on the stack left,
one step pushes the number and leaves the position just behind them. -/
def Pushes (bs : Bytes) (x : UInt256) : Prop :=
  ∀ (env : Env) (m : Machine), env.StandsAt m.frame.pc bs →
    m.steps < env.settings.stepLimit.toNat →
    m.frame.stack.length < env.settings.stackLimit.toNat →
    m.step env = .running (m.pushing bs.length x)

theorem pushes_pushOf {imm : Bytes} (hlen : imm.length ≤ 32) :
    Pushes (pushOf imm) (numberOfBytes imm) := by
  rintro env m ⟨behind, hcode⟩ hsteps hroom
  have hcode : env.code.toList.drop m.frame.pc
      = UInt8.ofNat (0x5f + imm.length) :: (imm ++ behind) := hcode.symm
  rw [Machine.step_pushOf hlen hcode hsteps hroom, List.append_assoc, List.take_left]

/-- It is a passage. -/
theorem Pushes.passes {bs : Bytes} {x : UInt256} (h : Pushes bs x) {env : Env} {f : Frame}
    {pc : Nat} {stack : List UInt256} {memory : Memory} (hstands : env.StandsAt pc bs)
    (hroom : stack.length < env.settings.stackLimit.toNat) :
    (f.placed pc stack memory).Passes env 1 (f.placed (pc + bs.length) (x :: stack) memory) := by
  intro steps hsteps
  rw [Machine.run_of_running (h env ⟨f.placed pc stack memory, steps⟩ hstands hsteps hroom)]
  exact if_pos (Nat.lt_succ_self steps)

/-- **What a push does to the stack** where execution goes on. -/
theorem Machine.stack_of_push {env : Env} {m m' : Machine} {n : Nat}
    (hop : env.opAt? m.frame.pc = some (.push n)) (hstep : m.step env = .running m') :
    m'.frame.stack
      = numberOfBytes (zeroExtended env.code (m.frame.pc + 1) n) :: m.frame.stack := by
  obtain ⟨byte, hbyte, hop⟩ := Option.bind_eq_some_iff.mp hop
  rcases step_cases env m with ⟨-, heq⟩ | ⟨-, heq⟩ | ⟨-, steps, -, hsteps, -⟩
  · cases heq.symm.trans hstep
  · cases heq.symm.trans hstep
  · rw [step_eq_perform hbyte hop hsteps, Frame.perform, Frame.push] at hstep
    split at hstep
    · cases hstep
      rfl
    · cases hstep

/-- A push of too few bytes does not push a number. -/
theorem Machine.head?_ne_of_push {env : Env} {m m' : Machine} {n : Nat} {x : UInt256}
    (hn : n ≤ 32) (hx : 256 ^ n ≤ x.toNat) (hop : env.opAt? m.frame.pc = some (.push n))
    (hstep : m.step env = .running m') : m'.frame.stack.head? ≠ some x := by
  rw [stack_of_push hop hstep]
  rintro ⟨rfl⟩
  have hlen := length_zeroExtended env.code (m.frame.pc + 1) n
  have hlt := Bytes.toNat_lt (zeroExtended env.code (m.frame.pc + 1) n)
  rw [toNat_numberOfBytes (hlen.trans_le hn)] at hx
  rw [hlen] at hlt
  omega

/-- A word is pushed without its leading zeros. -/
theorem pushes_word (w : Word) : Pushes (pushOf (Bytes.dropLeadingZeros w.bytes)) w.toUInt256 := by
  have hnumber : numberOfBytes (Bytes.dropLeadingZeros w.bytes) = w.toUInt256 :=
    congrArg (BitVec.ofNat 256) (Bytes.toNat_dropLeadingZeros w.bytes)
  rw [← hnumber]
  exact pushes_pushOf (length_dropLeadingZeros_le w)

section Cut

variable {env : Env} {m : Machine} {bs : Bytes} {j : Nat} (hlen : bs.length ≤ 32)
  (hj : j ≤ bs.length)
  (hcode : env.code.toList.drop m.frame.pc = (pushOf bs).take ((pushOf bs).length - j))
  (hsteps : m.steps < env.settings.stepLimit.toNat)
  (hroom : m.frame.stack.length < env.settings.stackLimit.toNat)
include hlen hj hcode hsteps hroom

/-- **What a push does that is cut by the end of the code.** -/
theorem Machine.step_of_cut :
    m.step env = .running (m.pushing (pushOf bs).length
      (numberOfBytes (bs.take (bs.length - j) ++ Bytes.zeros j))) := by
  have htail : (pushOf bs).take ((pushOf bs).length - j)
      = UInt8.ofNat (0x5f + bs.length) :: bs.take (bs.length - j) := by
    rw [length_pushOf, Nat.sub_add_comm hj, pushOf, List.take_succ_cons]
  have hzeros : (bs.take (bs.length - j) ++ Bytes.zeros bs.length).take bs.length
      = bs.take (bs.length - j) ++ Bytes.zeros j := by
    have hsplit : Bytes.zeros bs.length = Bytes.zeros j ++ Bytes.zeros (bs.length - j) := by
      rw [← Bytes.zeros_add, Nat.add_sub_cancel' hj]
    rw [hsplit, ← List.append_assoc]
    refine List.take_left' ?_
    rw [List.length_append, List.length_take_of_le (Nat.sub_le _ _), Bytes.length_zeros,
      Nat.sub_add_cancel hj]
  rw [step_pushOf hlen (hcode.trans htail) hsteps hroom, hzeros]

/-- It leads behind the end of the code, and so the execution ends. -/
theorem Machine.run_of_cut :
    m.run env = .ok ⟨.returned [], m.steps + 1, m.frame.logs.toList⟩ := by
  have hend : env.code.size ≤ m.frame.pc + (pushOf bs).length := by
    have hcount := congrArg List.length hcode
    rw [List.length_drop, Array.length_toList, List.length_take] at hcount
    omega
  rw [run_of_running (step_of_cut hlen hj hcode hsteps hroom)]
  exact (if_pos (Nat.lt_succ_self m.steps)).trans (run_of_size_le hend)

end Cut

/-- **Pushes are carried out as they are emitted.** A word is emitted as a
push of its number, and no shorter push pushes it. Up to a word of bytes is
emitted as a push of the number they spell. And where the code ends within
the bytes of such a push, those that are missing are zero, and with the
number on the stack the execution ends and returns nothing. -/
theorem pushes_what_is_emitted :
    (∀ w : Word, (∀ a : Assembly, a.pushWord w = a.emit (pushOf (Bytes.dropLeadingZeros w.bytes)))
      ∧ Pushes (pushOf (Bytes.dropLeadingZeros w.bytes)) w.toUInt256
      ∧ ∀ n, n + 1 < (pushOf (Bytes.dropLeadingZeros w.bytes)).length →
        ∀ (env : Env) (m m' : Machine), env.opAt? m.frame.pc = some (.push n) →
          m.step env = .running m' → m'.frame.stack.head? ≠ some w.toUInt256)
    ∧ (∀ bs : Bytes, 1 ≤ bs.length → bs.length ≤ 32 →
      (∀ a : Assembly, a.pushBytes bs = a.emit (pushOf bs)) ∧ Pushes (pushOf bs) (numberOfBytes bs))
    ∧ ∀ bs : Bytes, bs.length ≤ 32 → ∀ j ≤ bs.length, ∀ (env : Env) (m : Machine),
      env.code.toList.drop m.frame.pc = (pushOf bs).take ((pushOf bs).length - j) →
      m.steps < env.settings.stepLimit.toNat →
      m.frame.stack.length < env.settings.stackLimit.toNat →
      m.step env = .running (m.pushing (pushOf bs).length
          (numberOfBytes (bs.take (bs.length - j) ++ Bytes.zeros j)))
        ∧ m.run env = .ok ⟨.returned [], m.steps + 1, m.frame.logs.toList⟩ := by
  refine ⟨fun w => ⟨fun a => a.pushWord_eq w, pushes_word w, ?_⟩, ?_, ?_⟩
  · intro n hn env m m' hop hstep
    have hn : n < (Bytes.dropLeadingZeros w.bytes).length := Nat.lt_of_succ_lt_succ hn
    have hpow : 256 ^ n ≤ w.toUInt256.toNat := by
      rw [toNat_toUInt256]
      exact Bytes.pow_le_toNat hn
    exact Machine.head?_ne_of_push (hn.le.trans (length_dropLeadingZeros_le w)) hpow hop hstep
  · intro bs hpos hlen
    exact ⟨fun a => a.pushBytes_of_length ⟨hpos, hlen⟩, pushes_pushOf hlen⟩
  · intro bs hlen j hj env m hcode hsteps hroom
    exact ⟨Machine.step_of_cut hlen hj hcode hsteps hroom,
      Machine.run_of_cut hlen hj hcode hsteps hroom⟩

/-- The number 256 takes two bytes, the last of which may be left out at the
end of the code. -/
theorem pushes_what_is_emitted_256 :
    Machine.initial.step (Env.new .standard [0x61, 1, 0, 0x5b] [])
        = .running (Machine.initial.pushing 3 (Word.ofNat 256).toUInt256)
      ∧ Machine.initial.step (Env.new .standard [0x61, 1] [])
        = .running (Machine.initial.pushing 3 (Word.ofNat 256).toUInt256)
      ∧ Machine.initial.run (Env.new .standard [0x61, 1] []) = .ok ⟨.returned [], 1, []⟩ := by
  obtain ⟨hwords, -, hcut⟩ := pushes_what_is_emitted
  obtain ⟨-, hpushes, -⟩ := hwords (Word.ofNat 256)
  refine ⟨hpushes _ _ ⟨[0x5b], rfl⟩ (by decide) (by decide), ?_⟩
  exact hcut [1, 0] (by decide) 1 (by decide) (Env.new .standard [0x61, 1] []) Machine.initial rfl
    (by decide) (by decide)

end Evm

end EthCall
