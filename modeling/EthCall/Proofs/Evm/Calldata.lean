import EthCall.Proofs.Evm.HighWater
import EthCall.Proofs.Evm.Passage

/-!
# Two ways to read calldata

A contract gets at a word of its calldata in one instruction, or it copies
the bytes into its memory and loads the word from there. Calldata have an
end and an offset may be any number, so both ways have to say what is read
where there is nothing: zeros. For the copy this is a matter of writing as
much as of reading. Whatever stood in the memory before, the bytes of the
target are overwritten to the last one, also those for which calldata have
no byte (`Machine.step_callDataCopy`).

Each way cuts what it reads to the bytes that there are, in numbers of a
bounded size. This is the same row of bytes as the one without an end that
the machine is told with, and so the two agree, whatever the offset is
(`reads_calldata_alike`).
-/

namespace EthCall.Evm

/-! ## Access to memory -/

namespace Frame

variable {env : Env} {offset len : UInt256}

/-- **Bytes are put into memory** within the limit, and nothing else changes
there. -/
theorem put_of_extent_le (h : (Access.mk offset len).extent ≤ env.settings.memoryLimit.toNat)
    (f : Frame) (bs : Unit → Bytes) : ∃ memory,
      memory.byte = Row.overwrite f.memory.byte offset.toNat (bs ())
        ∧ f.put env offset len bs = .next { f with memory := memory } := by
  unfold put
  rw [reserve_eq, if_neg (Nat.not_lt.mpr h)]
  exact ⟨_, Memory.byte_write (f.memory.grow _) _ _, rfl⟩

/-- **Bytes are read from memory** within the limit. -/
theorem fetch_of_extent_le (h : (Access.mk offset len).extent ≤ env.settings.memoryLimit.toNat)
    (f : Frame) (k : Bytes → Frame → Effect) : ∃ memory,
      f.fetch env offset len k
        = k (Row.stretch f.memory.byte offset.toNat len.toNat) { f with memory := memory } := by
  unfold fetch
  rw [reserve_eq, if_neg (Nat.not_lt.mpr h)]
  exact ⟨_, rfl⟩

end Frame

/-! ## Single steps -/

namespace Machine

/-- **A machine is at an instruction** and finds its operands on a stack
that is not too deep, with a step left. -/
structure Faces (env : Env) (m : Machine) (op : Op) (operands rest : List UInt256) : Prop where
  /-- The instruction is the next one. -/
  op_eq : env.opAt? m.frame.pc = some op
  /-- The operands are at the top. -/
  stack_eq : m.frame.stack = operands ++ rest
  /-- The stack is not too deep. -/
  depth_le : m.frame.stack.length ≤ env.settings.stackLimit.toNat
  /-- There is a step left. -/
  steps_lt : m.steps < env.settings.stepLimit.toNat

variable {env : Env} {m : Machine} {op : Op} {a : UInt256} {operands rest : List UInt256}

/-- An operand leaves its place to a result. -/
theorem Faces.room (h : m.Faces env op (a :: operands) rest) :
    rest.length < env.settings.stackLimit.toNat := by
  have hdepth := h.depth_le
  rw [h.stack_eq, List.length_append, List.length_cons] at hdepth
  omega

variable {o d n : UInt256}

/-- **A word of calldata takes the place of its offset.** -/
theorem step_callDataLoad (h : m.Faces env .callDataLoad [o] rest) :
    m.step env = .running ⟨{ m.frame.advance with
      stack := numberOfBytes (zeroExtended env.calldata o.toNat 32) :: rest }, m.steps + 1⟩ :=
  Frame.step_of_perform h.op_eq
    (Frame.perform_callDataLoad (f := m.frame.advance) h.room h.stack_eq) h.steps_lt

/-- **A stretch of calldata takes the place of a stretch of memory.** -/
theorem step_callDataCopy (h : m.Faces env .callDataCopy [d, o, n] rest)
    (hlimit : (Access.mk d n).extent ≤ env.settings.memoryLimit.toNat) : ∃ memory,
      memory.byte = Row.overwrite m.frame.memory.byte d.toNat
          (zeroExtended env.calldata o.toNat n.toNat)
        ∧ m.step env = .running ⟨{ m.frame.advance with stack := rest, memory := memory },
          m.steps + 1⟩ := by
  obtain ⟨memory, hbyte, hput⟩ := Frame.put_of_extent_le hlimit
    { m.frame.advance with stack := rest } fun _ => zeroExtended env.calldata o.toNat n.toNat
  refine ⟨memory, hbyte, Frame.step_of_perform h.op_eq (fun gas byte => ?_) h.steps_lt⟩
  rw [Frame.perform, Frame.pop3_of_stack (f := m.frame.advance) h.stack_eq]
  exact hput

/-- **A word of memory takes the place of its offset.** -/
theorem step_memoryLoad (h : m.Faces env .memoryLoad [d] rest)
    (hlimit : (Access.mk d 32).extent ≤ env.settings.memoryLimit.toNat) : ∃ memory,
      m.step env = .running ⟨{ m.frame.advance with
          stack := numberOfBytes (Row.stretch m.frame.memory.byte d.toNat 32) :: rest
          memory := memory }, m.steps + 1⟩ := by
  obtain ⟨memory, hfetch⟩ := Frame.fetch_of_extent_le hlimit
    { m.frame.advance with stack := rest } fun bs f => f.push env (numberOfBytes bs)
  refine ⟨memory, Frame.step_of_perform h.op_eq (fun gas byte => ?_) h.steps_lt⟩
  rw [Frame.perform, Frame.pop_of_stack (f := m.frame.advance) h.stack_eq]
  exact hfetch.trans (Frame.push_of_lt h.room _)

end Machine

/-! ## Both ways -/

/-- **The word at an offset**, as a number. -/
def Row.word (A : Row) (offset : Nat) : UInt256 := numberOfBytes (A.stretch offset 32)

/-- Copied bytes are those of the source, zeros included. -/
theorem Row.overwrite_stretch_add (A B : Row) (d o : Nat) {n i : Nat} (hi : i < n) :
    A.overwrite d (B.stretch o n) (d + i) = B (o + i) := by
  have hlen : i < (B.stretch o n).length := (B.length_stretch o n).symm ▸ hi
  rw [overwrite_add, List.getD_eq_getElem _ _ hlen]
  refine (List.getElem_map _).trans ?_
  rw [List.getElem_range]

/-- **A word of calldata is the same whichever way it is read.** It is the
number of the 32 bytes from the offset on: this is what a load pushes, and
after a copy into memory it is what a load from there pushes, as long as the
bytes are those that were copied. A copy of any length overwrites all bytes
of its target, with zeros where there are no more calldata, and no others.
And cutting the bytes to those that there are comes to the same thing for
both. -/
theorem reads_calldata_alike (settings : Settings) (code calldata : Bytes) (o : UInt256) :
    (∀ (m : Machine) (rest : List UInt256),
      m.Faces (Env.new settings code calldata) .callDataLoad [o] rest →
      m.step (Env.new settings code calldata) = .running ⟨{ m.frame.advance with
        stack := (Row.ofBytes calldata).word o.toNat :: rest }, m.steps + 1⟩)
    ∧ (∀ (d n : UInt256) (m : Machine) (rest : List UInt256),
      m.Faces (Env.new settings code calldata) .callDataCopy [d, o, n] rest →
      (Access.mk d n).extent ≤ settings.memoryLimit.toNat →
      ∃ m' : Machine, m.step (Env.new settings code calldata) = .running m'
        ∧ m'.frame.stack = rest
        ∧ (∀ i < n.toNat, m'.frame.memory.byte (d.toNat + i) = calldata.getD (o.toNat + i) 0)
        ∧ (∀ i, i < d.toNat ∨ d.toNat + n.toNat ≤ i →
          m'.frame.memory.byte i = m.frame.memory.byte i)
        ∧ (n = 32 → ∀ (later : Machine) (below : List UInt256),
          later.Faces (Env.new settings code calldata) .memoryLoad [d] below →
          (∀ i < 32, later.frame.memory.byte (d.toNat + i) = m'.frame.memory.byte (d.toNat + i)) →
          ∃ memory, later.step (Env.new settings code calldata)
            = .running ⟨{ later.frame.advance with
                stack := (Row.ofBytes calldata).word o.toNat :: below
                memory := memory }, later.steps + 1⟩))
    ∧ (calldata.length ≤ maxSize →
      Trapping.loadWord calldata.toArray o = .ok ((Row.ofBytes calldata).word o.toNat)
      ∧ ∀ n, Trapping.filled calldata.toArray o n
        = .ok ((Row.ofBytes calldata).stretch o.toNat n)) := by
  have hread (n : Nat) : zeroExtended (Env.new settings code calldata).calldata o.toNat n
      = (Row.ofBytes calldata).stretch o.toNat n := zeroExtended_toArray calldata o.toNat n
  refine ⟨fun m rest h => ?_, fun d n m rest h hlimit => ?_, fun hsize => ⟨?_, fun n => ?_⟩⟩
  · rw [Machine.step_callDataLoad h, hread]
    rfl
  · obtain ⟨memory, hbyte, hstep⟩ := Machine.step_callDataCopy h hlimit
    rw [hread] at hbyte
    have hcopied (i : Nat) (hi : i < n.toNat) :
        memory.byte (d.toNat + i) = calldata.getD (o.toNat + i) 0 := by
      rw [hbyte]
      exact Row.overwrite_stretch_add _ (Row.ofBytes calldata) _ _ hi
    refine ⟨_, hstep, rfl, hcopied, fun i hi => ?_, ?_⟩
    · show memory.byte i = _
      rw [hbyte]
      rcases hi with hlt | hle
      · exact Row.overwrite_of_lt _ _ hlt
      · exact Row.overwrite_of_le _ (by rwa [Row.length_stretch])
    · rintro rfl later below hload hsame
      have hstretch : Row.stretch later.frame.memory.byte d.toNat 32
          = (Row.ofBytes calldata).stretch o.toNat 32 :=
        List.map_congr_left fun i hi =>
          have hi : i < 32 := List.mem_range.mp hi
          (hsame i hi).trans (hcopied i hi)
      obtain ⟨memory', hloaded⟩ := Machine.step_memoryLoad hload hlimit
      rw [hstretch] at hloaded
      exact ⟨memory', hloaded⟩
  · rw [Trapping.loadWord_eq hsize, zeroExtended_toArray]
    rfl
  · rw [Trapping.filled_eq hsize, zeroExtended_toArray]

/-- The last byte of two is read as the first of a word, also by way of a
memory whose bytes were not zero. -/
theorem reads_calldata_alike_at_last_byte :
    (Machine.mk { Frame.initial with stack := [1] } 0).step (Env.new .standard [0x35] [5, 7])
        = .running ⟨{ Frame.initial with pc := 1, stack := [BitVec.ofNat 256 (7 * 256 ^ 31)] }, 1⟩
      ∧ ∃ m' : Machine,
        (Machine.mk { Frame.initial with
          stack := [0, 1, 32], memory := Memory.empty.write 0 [1, 1, 1] } 0).step
            (Env.new .standard [0x37, 0x51] [5, 7]) = .running m'
          ∧ m'.frame.memory.byte 2 = 0
          ∧ ∃ memory, (Machine.mk { m'.frame with pc := 1, stack := [0] } 1).step
              (Env.new .standard [0x37, 0x51] [5, 7])
            = .running ⟨{ m'.frame with
              pc := 2, stack := [BitVec.ofNat 256 (7 * 256 ^ 31)], memory := memory }, 2⟩ := by
  refine ⟨?_, ?_⟩
  · exact (reads_calldata_alike .standard [0x35] [5, 7] 1).1
      ⟨{ Frame.initial with stack := [1] }, 0⟩ [] ⟨by decide +kernel, rfl, by decide, by decide⟩
  · obtain ⟨-, hcopy, -⟩ := reads_calldata_alike .standard [0x37, 0x51] [5, 7] 1
    obtain ⟨m', hstep, -, hbytes, -, hloads⟩ := hcopy 0 32
      ⟨{ Frame.initial with stack := [0, 1, 32], memory := Memory.empty.write 0 [1, 1, 1] }, 0⟩ []
      ⟨by decide +kernel, rfl, by decide, by decide⟩ (by decide +kernel)
    obtain ⟨memory, hload⟩ := hloads rfl ⟨{ m'.frame with pc := 1, stack := [0] }, 1⟩ []
      ⟨(by decide +kernel : (Env.new .standard [0x37, 0x51] [5, 7]).opAt? 1 = some .memoryLoad),
        rfl, (by decide : 1 ≤ Settings.standard.stackLimit.toNat),
        (by decide : 1 < Settings.standard.stepLimit.toNat)⟩ fun _ _ => rfl
    exact ⟨m', hstep, hbytes 2 (by decide), memory, hload⟩

end EthCall.Evm
