import EthCall.Proofs.Evm.Computation
import EthCall.Proofs.Evm.History
import EthCall.Proofs.Evm.Untrapped
import Mathlib

/-!
# How far memory has been used

Nothing asks for memory as such. An instruction accesses so many bytes from
some place on, and memory is there up to the end of the last word of them.
An `Access` is such a place and such a number, any two numbers of the
stack, and how far it reaches is told in numbers that have no bound
(`Access.reach`). An access without bytes needs no memory, wherever it is
(`Access.extent`).

Which accesses an instruction makes can be read off the stack
(`Op.accesses`), and they are all that it has to do with the size of the
memory (`Frame.asks_perform`). Each of them is granted if it stays within
the limit, and the first that does not stops the execution. So the memory
in use is at all times the high-water mark of the accesses so far
(`Machine.size_after`), and this is the number that a contract is told.

The numbers that a machine computes with do have a bound, and it gives up
where a place, a length or a sum of them is beyond it. There the memory
asked for is beyond every limit as well (`Access.extent?_reach`), and so
giving up is right.
-/

namespace EthCall.Evm

/-! ## Accesses -/

/-- **An access to memory.** -/
structure Access where
  /-- The place of the first byte. -/
  offset : UInt256
  /-- The number of bytes. -/
  len : UInt256

namespace Access

/-- **How far an access reaches**: up to the end of its last word. -/
def reach (a : Access) : Nat := 32 * ((a.offset.toNat + a.len.toNat) ⌈/⌉ 32)

/-- **How much memory an access needs.** Without bytes it needs none. -/
def extent (a : Access) : Nat := if a.len = 0 then 0 else a.reach

/-- **The memory that some accesses need** is what the one of them needs
that reaches farthest. -/
def highWater : List Access → Nat
  | [] => 0
  | a :: rest => max a.extent (highWater rest)

/-- The accesses that are granted: those before the first that is
refused. -/
def granted (limit : Nat) (as : List Access) : List Access :=
  as.takeWhile fun a => a.extent ≤ limit

/-- The access that is refused, if one is. -/
def refused? (limit : Nat) (as : List Access) : Option Access :=
  as.find? fun a => limit < a.extent

variable {limit : Nat} {a : Access} {as : List Access}

theorem reach_eq (a : Access) : a.reach = Frame.wholeWords (a.offset.toNat + a.len.toNat) := by
  unfold reach Frame.wholeWords
  rw [Nat.ceilDiv_eq_add_pred_div, Nat.mul_comm]
  rfl

/-- Only an access with bytes needs more than there may be. -/
theorem lt_extent_iff : limit < a.extent ↔ a.len ≠ 0 ∧ limit < a.reach := by
  unfold extent
  split
  case isTrue h => exact iff_of_false (Nat.not_lt_zero _) fun hlen => hlen.1 h
  case isFalse h => exact (and_iff_right h).symm

theorem highWater_append (as bs : List Access) :
    highWater (as ++ bs) = max (highWater as) (highWater bs) := by
  induction as with
  | nil => exact (Nat.zero_max _).symm
  | cons a as ih => rw [List.cons_append, highWater, highWater, ih, Nat.max_assoc]

/-- Accesses without bytes need no memory. -/
theorem highWater_eq_zero (h : ∀ a ∈ as, a.len = 0) : highWater as = 0 := by
  induction as with
  | nil => rfl
  | cons a as ih =>
    rw [highWater, extent, if_pos (h a List.mem_cons_self),
      ih fun b hb => h b (List.mem_cons_of_mem _ hb)]
    rfl

theorem granted_cons_of_le (h : a.extent ≤ limit) :
    granted limit (a :: as) = a :: granted limit as :=
  List.takeWhile_cons_of_pos (decide_eq_true h)

theorem granted_cons_of_lt (h : limit < a.extent) : granted limit (a :: as) = [] :=
  List.takeWhile_cons_of_neg (by simpa using h)

theorem refused?_cons_of_le (h : a.extent ≤ limit) :
    refused? limit (a :: as) = refused? limit as :=
  List.find?_cons_of_neg (by simpa using h)

theorem refused?_cons_of_lt (h : limit < a.extent) : refused? limit (a :: as) = some a :=
  List.find?_cons_of_pos (decide_eq_true h)

/-- All accesses are granted if none is refused. -/
theorem granted_eq_self (h : refused? limit as = none) : granted limit as = as := by
  refine List.takeWhile_eq_self_iff.mpr fun a ha => ?_
  simpa using List.find?_eq_none.mp h a ha

/-- One is refused if one reaches beyond the limit. -/
theorem isSome_refused? :
    (refused? limit as).isSome ↔ ∃ a ∈ as, a.len ≠ 0 ∧ limit < a.reach := by
  unfold refused?
  simp only [List.find?_isSome, decide_eq_true_eq, lt_extent_iff]

/-- **Numbers with a bound are enough.** What is computed with them is how
far the access reaches, and if it cannot be computed, the access reaches
beyond all of them. -/
theorem extent?_reach (a : Access) :
    (Trapping.extent? a.offset a.len).elim (maxSize < a.reach)
      fun (_, _, padded) => padded / 32 * 32 = a.reach := by
  have hmax : maxSize = 2 ^ 64 - 1 := rfl
  rw [Trapping.extent?_eq, reach_eq]
  unfold Frame.wholeWords
  split
  case isTrue => rfl
  case isFalse h =>
    show maxSize < _
    omega

end Access

/-- **The accesses of an instruction** that finds these numbers on the
stack. There are none if an operand is missing. The last two end the
execution, so that nothing asks how much memory they have used. -/
def Op.accesses (op : Op) (stack : List UInt256) : List Access :=
  match op, stack with
  | memoryLoad, offset :: _ => [⟨offset, 32⟩]
  | memoryStore, offset :: _ :: _ => [⟨offset, 32⟩]
  | memoryStore8, offset :: _ :: _ => [⟨offset, 1⟩]
  | memoryCopy, dest :: source :: len :: _ => [⟨dest, len⟩, ⟨source, len⟩]
  | callDataCopy, dest :: _ :: len :: _ => [⟨dest, len⟩]
  | codeCopy, dest :: _ :: len :: _ => [⟨dest, len⟩]
  | returnDataCopy, dest :: source :: len :: _ => if source = 0 ∧ len = 0 then [⟨dest, len⟩] else []
  | keccak256, offset :: len :: _ => [⟨offset, len⟩]
  | log n, offset :: len :: topics => if n ≤ topics.length then [⟨offset, len⟩] else []
  | return_, offset :: len :: _ => [⟨offset, len⟩]
  | revert, offset :: len :: _ => [⟨offset, len⟩]
  | _, _ => []

/-- How much memory was asked for and how much there may be, if this is
why the execution is stopped. -/
def Fault.overMemory? : Fault → Option (Nat × Nat)
  | memoryLimitExceeded requested limit => some (requested, limit)
  | _ => none

theorem Fault.bind_overMemory?_eq_some {e : Option Fault} {requested limit : Nat} :
    e.bind overMemory? = some (requested, limit)
      ↔ e = some (.memoryLimitExceeded requested limit) := by
  cases e with
  | none => exact iff_of_false nofun nofun
  | some e => cases e <;> simp [overMemory?]

/-! ## The parts of an instruction -/

/-- **Some accesses are served**, with so much memory in use before and
behind them, and with a reason to stop the execution if there is one. -/
structure Access.Served (limit : Nat) (as : List Access) (size size' : Nat)
    (fault? : Option Fault) : Prop where
  /-- Memory grows as those need that are granted. -/
  size_eq : size' = max size (highWater (granted limit as))
  /-- The execution is stopped for the one that is refused. A number beyond
  all sizes is given as the largest size. -/
  overMemory?_eq : fault?.bind Fault.overMemory?
    = (refused? limit as).map fun a => (min a.extent maxSize, limit)

namespace Access.Served

variable {limit size size' : Nat} {as : List Access} {fault? : Option Fault}

/-- Where nothing is accessed, nothing happens to the memory. -/
theorem nil (hfault : fault?.bind Fault.overMemory? = none) : Served limit [] size size fault? :=
  ⟨(Nat.max_zero _).symm, hfault⟩

variable (h : Served limit as size size' fault?)
include h

/-- If the execution is not stopped for its memory, every access is
granted. -/
theorem granted_eq (hfault : fault?.bind Fault.overMemory? = none) : granted limit as = as := by
  refine granted_eq_self ?_
  have hnone := h.overMemory?_eq
  rwa [hfault, eq_comm, Option.map_eq_none_iff] at hnone

/-- **The execution is stopped for its memory exactly if an access with
bytes reaches beyond the limit.** -/
theorem exceeded_iff : (∃ requested, fault? = some (.memoryLimitExceeded requested limit))
    ↔ ∃ a ∈ as, a.len ≠ 0 ∧ limit < a.reach := by
  simp only [← isSome_refused?, ← Fault.bind_overMemory?_eq_some, h.overMemory?_eq]
  cases refused? limit as <;> simp

/-- If no access does, the memory is that of all of them. -/
theorem size_eq_of_forall (hall : ∀ a ∈ as, a.len ≠ 0 → a.reach ≤ limit) :
    size' = max size (highWater as) := by
  have hnone : refused? limit as = none := by
    refine Option.not_isSome_iff_eq_none.mp fun hsome => ?_
    obtain ⟨a, ha, hlen, hlt⟩ := isSome_refused?.mp hsome
    exact Nat.not_le.mpr hlt (hall a ha hlen)
  rw [h.size_eq, granted_eq_self hnone]

/-- **Accesses without bytes change nothing.** -/
theorem size_eq_of_empty (hempty : ∀ a ∈ as, a.len = 0) : size' = size := by
  rw [h.size_eq_of_forall fun a ha hlen => absurd (hempty a ha) hlen, highWater_eq_zero hempty,
    Nat.max_zero]

end Access.Served

/-- **An effect that serves accesses**, with so much memory in use
before. -/
def Effect.Serves (limit size : Nat) (as : List Access) (e : Effect) : Prop :=
  Access.Served limit as size e.frame.memory.size e.fault?

/-- An effect that leaves the memory as it is serves no access. -/
theorem Effect.serves_nil {e : Effect} {limit size : Nat} (hsize : e.frame.memory.size = size)
    (hfault : e.fault?.bind Fault.overMemory? = none) : e.Serves limit size [] :=
  hsize ▸ .nil hfault

namespace Frame

/-- **A part of an instruction that asks for accesses**, which the stack
tells. -/
def Asks (env : Env) (asked : List UInt256 → List Access) (e : Frame → Effect) : Prop :=
  ∀ f : Frame, (e f).Serves env.settings.memoryLimit.toNat f.memory.size (asked f.stack)

variable {env : Env} {asked : List UInt256 → List Access} {as : List Access}

/-- **A stretch is reserved if its access stays within the limit.** -/
theorem reserve_eq (env : Env) (f : Frame) (offset len : UInt256) (k : Frame → Effect) :
    f.reserve env offset len k
      = if env.settings.memoryLimit.toNat < (Access.mk offset len).extent then
          .fault (.memoryLimitExceeded (min (Access.mk offset len).extent maxSize)
            env.settings.memoryLimit.toNat) f
        else k { f with memory := f.memory.grow (Access.mk offset len).extent } := by
  have hlimit : env.settings.memoryLimit.toNat ≤ maxSize :=
    Nat.le_pred_of_lt env.settings.memoryLimit.toNat_lt
  have hmax : maxSize = 2 ^ 64 - 1 := rfl
  unfold reserve Access.extent
  by_cases hlen : len = 0
  · rw [if_pos hlen, if_pos hlen, if_neg (Nat.not_lt_zero _)]
    unfold Memory.grow
    rw [Nat.max_zero]
  · rw [if_neg hlen, if_neg hlen, Access.reach_eq]
    dsimp only
    have hwords : wholeWords (offset.toNat + len.toNat)
        = (offset.toNat + len.toNat + 31) / 32 * 32 := rfl
    by_cases hsize : maxSize < offset.toNat + len.toNat + 31
    · rw [if_pos hsize, if_pos (by omega), Nat.min_eq_right (by omega)]
    · rw [if_neg hsize, Nat.min_eq_left (by omega)]

theorem asks_reserve {offset len : UInt256} {k : Frame → Effect} (hk : Asks env (fun _ => as) k) :
    Asks env (fun _ => ⟨offset, len⟩ :: as) fun f => f.reserve env offset len k := by
  intro f
  dsimp only
  rw [reserve_eq]
  split
  case isTrue h =>
    refine ⟨?_, ?_⟩
    · rw [Access.granted_cons_of_lt h]
      exact (Nat.max_zero _).symm
    · rw [Access.refused?_cons_of_lt h]
      rfl
  case isFalse h =>
    have hle := Nat.le_of_not_lt h
    have hserves := hk { f with memory := f.memory.grow (Access.mk offset len).extent }
    refine ⟨?_, ?_⟩
    · rw [Access.granted_cons_of_le hle, Access.highWater, ← Nat.max_assoc]
      exact hserves.size_eq
    · rw [Access.refused?_cons_of_le hle]
      exact hserves.overMemory?_eq

theorem asks_fetch {offset len : UInt256} {k : Bytes → Frame → Effect}
    (hk : ∀ bs, Asks env (fun _ => []) (k bs)) :
    Asks env (fun _ => [⟨offset, len⟩]) fun f => f.fetch env offset len k :=
  asks_reserve fun f => hk _ f

theorem asks_put {offset len : UInt256} {bs : Unit → Bytes} :
    Asks env (fun _ => [⟨offset, len⟩]) fun f => f.put env offset len bs :=
  asks_reserve fun _ => Effect.serves_nil (Memory.size_write _ _ _) rfl

/-- A missing operand keeps an instruction from all accesses. -/
theorem asks_pop {k : UInt256 → Frame → Effect} (hnil : asked [] = [])
    (hk : ∀ a, Asks env (fun rest => asked (a :: rest)) (k a)) :
    Asks env asked fun f => f.pop k := by
  intro f
  dsimp only
  rcases hstack : f.stack with _ | ⟨a, rest⟩
  · rw [hnil]
    unfold pop
    rw [hstack]
    exact Effect.serves_nil rfl rfl
  · rw [pop_of_stack hstack]
    exact hk a { f with stack := rest }

theorem asks_pop2 {k : UInt256 → UInt256 → Frame → Effect} (hnil : asked [] = [])
    (hone : ∀ a, asked [a] = [])
    (hk : ∀ a b, Asks env (fun rest => asked (a :: b :: rest)) (k a b)) :
    Asks env asked fun f => f.pop2 k :=
  asks_pop hnil fun a => asks_pop (hone a) (hk a)

theorem asks_pop3 {k : UInt256 → UInt256 → UInt256 → Frame → Effect} (hnil : asked [] = [])
    (hone : ∀ a, asked [a] = []) (htwo : ∀ a b, asked [a, b] = [])
    (hk : ∀ a b c, Asks env (fun rest => asked (a :: b :: c :: rest)) (k a b c)) :
    Asks env asked fun f => f.pop3 k :=
  asks_pop2 hnil hone fun a b => asks_pop (htwo a b) (hk a b)

theorem asks_popMany {n : Nat} {k : List UInt256 → Frame → Effect}
    (hk : ∀ xs, Asks env (fun _ => as) (k xs)) :
    Asks env (fun stack => if n ≤ stack.length then as else []) fun f => f.popMany n k := by
  intro f
  dsimp only
  unfold popMany
  split
  case isTrue h => exact hk _ { f with stack := f.stack.drop n }
  case isFalse h => exact Effect.serves_nil rfl rfl

section Results

variable {limit : Nat}

theorem serves_push (f : Frame) (x : UInt256) : (f.push env x).Serves limit f.memory.size [] := by
  unfold push
  split <;> exact Effect.serves_nil rfl rfl

theorem serves_jumpTo (f : Frame) (dest : UInt256) :
    (f.jumpTo env dest).Serves limit f.memory.size [] := by
  unfold jumpTo
  split <;> exact Effect.serves_nil rfl rfl

end Results

/-! ## Instructions -/

/-- **An instruction asks for its accesses, and for no other memory.** -/
theorem asks_perform (env : Env) (gas : Nat) (byte : UInt8) (op : Op) :
    Asks env op.accesses fun f => f.perform env gas byte op := by
  unfold perform
  cases op with
  | stop | jumpDest | invalid | external => exact fun _ => Effect.serves_nil rfl rfl
  | unary | record | callDataLoad | storageLoad | transientLoad =>
    exact asks_pop rfl fun _ f => serves_push f _
  | binary => exact asks_pop2 rfl (fun _ => rfl) fun _ _ f => serves_push f _
  | ternary => exact asks_pop3 rfl (fun _ => rfl) (fun _ _ => rfl) fun _ _ _ f => serves_push f _
  | context => exact fun f => serves_push f _
  | keccak256 =>
    exact asks_pop2 rfl (fun _ => rfl) fun _ _ => asks_fetch fun _ f => serves_push f _
  | callDataCopy | codeCopy =>
    exact asks_pop3 rfl (fun _ => rfl) (fun _ _ => rfl) fun _ _ _ => asks_put
  | returnDataCopy =>
    refine asks_pop3 rfl (fun _ => rfl) (fun _ _ => rfl) fun dest source len f => ?_
    simp only [Op.accesses]
    split
    case isTrue h =>
      -- an access without bytes is granted at once
      have hreserve : f.reserve env dest len .next = .next f := if_pos h.2
      rw [← hreserve]
      exact asks_reserve (fun _ => Effect.serves_nil rfl rfl) f
    case isFalse => exact Effect.serves_nil rfl rfl
  | pop => exact asks_pop rfl fun _ _ => Effect.serves_nil rfl rfl
  | memoryLoad => exact asks_pop rfl fun _ => asks_fetch fun _ f => serves_push f _
  | memoryStore | memoryStore8 => exact asks_pop2 rfl (fun _ => rfl) fun _ _ => asks_put
  | memoryCopy =>
    exact asks_pop3 rfl (fun _ => rfl) (fun _ _ => rfl) fun _ _ _ => asks_reserve <|
      asks_fetch fun _ _ => Effect.serves_nil (Memory.size_write _ _ _) rfl
  | storageStore | transientStore =>
    exact asks_pop2 rfl (fun _ => rfl) fun _ _ _ => Effect.serves_nil rfl rfl
  | jump => exact asks_pop rfl fun _ f => serves_jumpTo f _
  | jumpIf =>
    refine asks_pop2 rfl (fun _ => rfl) fun dest condition f => ?_
    dsimp only
    split
    · exact Effect.serves_nil rfl rfl
    · exact serves_jumpTo f dest
  | push size => exact fun f => serves_push { f with pc := f.pc + size } _
  | dup n =>
    intro f
    dsimp only
    split
    · exact serves_push f _
    · exact Effect.serves_nil rfl rfl
  | swap n =>
    intro f
    dsimp only
    split <;> exact Effect.serves_nil rfl rfl
  | log n =>
    exact asks_pop2 rfl (fun _ => rfl) fun _ _ => asks_popMany fun _ =>
      asks_fetch fun _ _ => Effect.serves_nil rfl rfl
  | return_ | revert =>
    exact asks_pop2 rfl (fun _ => rfl) fun _ _ => asks_fetch fun _ _ => Effect.serves_nil rfl rfl

/-- The same for the instruction of a byte. A byte that is none asks for
nothing. -/
theorem serves_dispatch (env : Env) (gas : Nat) (byte : UInt8) (f : Frame) :
    (f.dispatch env gas byte).Serves env.settings.memoryLimit.toNat f.memory.size
      ((Op.ofByte? byte).elim [] (Op.accesses · f.stack)) := by
  unfold dispatch
  split
  case h_1 op hop =>
    rw [hop]
    exact asks_perform env gas byte op f
  case h_2 hop =>
    rw [hop]
    exact Effect.serves_nil rfl rfl

end Frame

/-! ## Executions -/

namespace Machine

/-- **The accesses of a step**: those of the instruction it carries out. -/
def accesses (env : Env) (m : Machine) : List Access :=
  if (m.charge? env).isSome then
    (env.code[m.frame.pc]?.bind Op.ofByte?).elim [] (Op.accesses · m.frame.stack)
  else []

/-- **The accesses so far**: those that the first `n` steps were granted. -/
def accessed (env : Env) : Nat → List Access
  | 0 => []
  | n + 1 => accessed env n
    ++ Access.granted env.settings.memoryLimit.toNat ((after env n).accesses env)

/-- **A step serves its accesses.** -/
theorem served_step (env : Env) (m : Machine) :
    Access.Served env.settings.memoryLimit.toNat (m.accesses env) m.frame.memory.size
      (m.step env).machine.frame.memory.size (m.step env).fault? := by
  unfold accesses
  rcases step_cases env m with ⟨hend, heq⟩ | ⟨hsteps, heq⟩ | ⟨byte, steps, hbyte, hsteps, heq⟩
  · rw [hend, Option.bind_none, Option.elim_none, ite_self, heq]
    exact .nil rfl
  · rw [hsteps, heq]
    exact .nil rfl
  · rw [hsteps, hbyte, heq, Effect.machine_progress, Effect.fault?_progress]
    exact Frame.serves_dispatch env _ byte m.frame.advance

/-- **The memory in use is the high-water mark of the accesses so far.** -/
theorem size_after (env : Env) (n : Nat) :
    (after env n).frame.memory.size = Access.highWater (accessed env n) := by
  induction n with
  | zero => rfl
  | succ n ih =>
    rw [accessed, Access.highWater_append, ← ih]
    exact (served_step env (after env n)).size_eq

section Code

variable {settings : Settings} {code calldata : Bytes} {m : Machine}

/-- The accesses of a step that carries out an instruction. -/
theorem accesses_eq {op : Op} {steps : Nat} (hop : m.op? code = some op)
    (hsteps : m.charge? (Env.new settings code calldata) = some steps) :
    m.accesses (Env.new settings code calldata) = op.accesses m.frame.stack := by
  rw [accesses, hsteps, op?_new, hop]
  rfl

/-- Where execution goes on, all of them are granted. -/
theorem accessed_succ {n : Nat} {op : Op} {m' : Machine}
    (hop : (after (Env.new settings code calldata) n).op? code = some op)
    (hstep : (after (Env.new settings code calldata) n).step (Env.new settings code calldata)
      = .running m') :
    accessed (Env.new settings code calldata) (n + 1)
      = accessed (Env.new settings code calldata) n
        ++ op.accesses (after (Env.new settings code calldata) n).frame.stack := by
  have hserved := served_step (Env.new settings code calldata)
    (after (Env.new settings code calldata) n)
  have hgranted := hserved.granted_eq (by rw [hstep]; rfl)
  rcases step_cases (Env.new settings code calldata) (after (Env.new settings code calldata) n) with
    ⟨-, heq⟩ | ⟨-, heq⟩ | ⟨-, steps, -, hsteps, -⟩
  · cases heq.symm.trans hstep
  · cases heq.symm.trans hstep
  · rw [accessed, hgranted, accesses_eq hop hsteps]

/-- The number that a contract is told. -/
theorem step_of_memorySize {steps : Nat} (hop : m.op? code = some (.context .memorySize))
    (hsteps : m.charge? (Env.new settings code calldata) = some steps)
    (hroom : m.frame.stack.length < settings.stackLimit.toNat) :
    m.step (Env.new settings code calldata)
      = .running ⟨{ m.frame.advance with
          stack := BitVec.ofNat 256 m.frame.memory.size :: m.frame.stack }, steps⟩ := by
  have hroom : m.frame.advance.stack.length
      < (Env.new settings code calldata).settings.stackLimit.toNat := hroom
  obtain ⟨byte, hbyte, hop⟩ := Option.bind_eq_some_iff.mp hop
  rw [step_eq_perform (List.getElem?_toArray.trans hbyte) hop hsteps]
  exact congrArg (Effect.progress steps) (Frame.push_of_lt hroom _)

end Code

/-- **Memory has been used as far as the accesses reach.** In every
execution, after any number of steps,

* an instruction that is carried out adds all of its accesses to those so
  far;
* the memory in use is the high-water mark of these, and this is the number
  that an instruction puts on the stack which asks for it.

And whatever is on the stack of a machine and in its memory, a step that
carries out an instruction

* is stopped for its memory exactly if one of its accesses has bytes and
  reaches, in integers, beyond the limit;
* makes the memory in use the larger of what it was and what the accesses
  need, if none of them does;
* leaves the size of the memory as it is if all of them are without bytes,
  wherever they are.

The numbers with a bound that a machine computes with come to the same. -/
theorem memory_size_is_highWater (settings : Settings) (code calldata : Bytes) :
    let env := Env.new settings code calldata
    let limit := settings.memoryLimit.toNat
    (∀ n, let m := after env n
      (∀ op m', m.op? code = some op → m.step env = .running m' →
        accessed env (n + 1) = accessed env n ++ op.accesses m.frame.stack)
      ∧ m.frame.memory.size = Access.highWater (accessed env n)
      ∧ ∀ steps, m.op? code = some (.context .memorySize) → m.charge? env = some steps →
        m.frame.stack.length < settings.stackLimit.toNat →
        ∃ x, unsigned x = Access.highWater (accessed env n)
          ∧ m.step env = .running ⟨{ m.frame.advance with stack := x :: m.frame.stack }, steps⟩)
    ∧ (∀ (m : Machine) op steps, m.op? code = some op → m.charge? env = some steps →
      let as := op.accesses m.frame.stack
      let size' := (m.step env).machine.frame.memory.size
      Access.Served limit as m.frame.memory.size size' (m.step env).fault?
      ∧ ((∃ requested, (m.step env).fault? = some (.memoryLimitExceeded requested limit))
        ↔ ∃ a ∈ as, a.len ≠ 0 ∧ limit < a.reach)
      ∧ ((∀ a ∈ as, a.len ≠ 0 → a.reach ≤ limit) →
        size' = max m.frame.memory.size (Access.highWater as))
      ∧ ((∀ a ∈ as, a.len = 0) → size' = m.frame.memory.size))
    ∧ ∀ a : Access, (Trapping.extent? a.offset a.len).elim (maxSize < a.reach)
      fun (_, _, padded) => padded / 32 * 32 = a.reach := by
  intro env limit
  refine ⟨fun n => ⟨fun op m' => accessed_succ, size_after env n, fun steps hop hsteps hroom => ?_⟩,
    fun m op steps hop hsteps => ?_, Access.extent?_reach⟩
  · refine ⟨_, ?_, step_of_memorySize hop hsteps hroom⟩
    -- a size within the limit is a number as it is
    have hle : (after env n).frame.memory.size ≤ limit := (within_frame_after env n).size_le
    have hlimit : limit < 2 ^ 64 := settings.memoryLimit.toNat_lt
    rw [unsigned_eq, BitVec.toNat_ofNat, ← size_after]
    exact Nat.mod_eq_of_lt (Nat.lt_trans (Nat.lt_of_le_of_lt hle hlimit) (by decide))
  · have hserved := served_step env m
    rw [accesses_eq hop hsteps] at hserved
    exact ⟨hserved, hserved.exceeded_iff, hserved.size_eq_of_forall, hserved.size_eq_of_empty⟩

/-- A word is loaded that begins in the second word of the memory, an entry
without bytes is logged from the largest place, the size of the memory is
asked for, and a word is loaded from the largest place. -/
def reachingCode : Bytes := [0x60, 33, 0x51, 0x5f, 0x5f, 0x19, 0xa0, 0x59, 0x5f, 0x19, 0x51]

/-- Three words are in use when the contract asks, and the execution is
stopped for the access to the largest place that has bytes. -/
theorem memory_size_is_highWater_reaching :
    (∃ x, unsigned x = 96
      ∧ (after (Env.new .standard reachingCode []) 7).frame.stack = [x, 0])
      ∧ ∃ requested, ((after (Env.new .standard reachingCode []) 9).step
          (Env.new .standard reachingCode [])).fault?
        = some (.memoryLimitExceeded requested Settings.standard.memoryLimit.toNat) := by
  obtain ⟨hruns, hsteps, -⟩ := memory_size_is_highWater .standard reachingCode []
  obtain ⟨-, -, htold⟩ := hruns 6
  obtain ⟨x, hx, hstep⟩ := htold 7 (by decide +kernel) (by decide +kernel) (by decide +kernel)
  have hwords : Access.highWater (accessed (Env.new .standard reachingCode []) 6) = 96 := by
    decide +kernel
  have hstack : (after (Env.new .standard reachingCode []) 6).frame.stack = [0] := by
    decide +kernel
  refine ⟨⟨x, hx.trans hwords, ?_⟩, ?_⟩
  · rw [after, hstep, ← hstack]
    rfl
  · refine (hsteps _ .memoryLoad 10 (by decide +kernel) (by decide +kernel)).2.1.mpr ?_
    have hstack : (after (Env.new .standard reachingCode []) 9).frame.stack
        = [BitVec.allOnes 256, 96, 0] := by
      decide +kernel
    rw [hstack]
    exact ⟨⟨BitVec.allOnes 256, 32⟩, List.mem_singleton_self _, by decide, by decide +kernel⟩

end Machine

end EthCall.Evm
