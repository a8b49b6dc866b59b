import EthCall.Proofs.Evm.Bounds

/-!
# What instructions take from the stack and leave on it

Every instruction has a fixed number of operands and a fixed number of
results (`Op.operands`, `Op.results`). Nothing in a machine holds these
numbers; they come out of the order in which an instruction takes numbers,
asks for memory and puts numbers back, and an instruction has several
places where it may go wrong.

What the numbers mean is said in three parts (`Frame.Replaces`). With fewer
numbers on the stack than operands, an instruction underflows the stack,
whatever else is the matter with it. With the operands alone on the stack it
leaves its results alone there. And what is below the operands is carried
along without being looked at, as long as there is room. Each part of an
instruction is of this kind if what follows it is, and so every instruction
is (`Frame.replaces_perform`).

All that the lower part of the stack can do to an instruction is to leave
no room for its results, and the only instructions to notice are those that
leave one number more than they take (`Frame.perform_of_full`).
-/

namespace EthCall.Evm

/-! ## Operands and results -/

namespace Op

/-- **How many numbers an instruction takes** from the stack, or looks at.
One that is not carried out takes none. -/
def operands : Op → Nat
  | stop | context _ | jumpDest | push _ | invalid | external _ => 0
  | unary _ | record _ | callDataLoad | pop | memoryLoad | storageLoad | transientLoad | jump => 1
  | binary _ | keccak256 | memoryStore | memoryStore8 | storageStore | transientStore | jumpIf
  | return_ | revert => 2
  | ternary _ | callDataCopy | codeCopy | returnDataCopy | memoryCopy => 3
  | dup n => n
  | swap n => n + 1
  | log n => n + 2

/-- **How many numbers an instruction leaves** in their place. -/
def results : Op → Nat
  | unary _ | binary _ | ternary _ | keccak256 | context _ | record _ | callDataLoad | memoryLoad
  | storageLoad | transientLoad | push _ => 1
  | dup n | swap n => n + 1
  | _ => 0

/-- An instruction that counts from the top of the stack counts from one. -/
def countsFromOne : Op → Bool
  | dup n | swap n => 0 < n
  | _ => true

/-- Every byte stands for one that does. -/
theorem countsFromOne_of_ofByte? {byte : UInt8} {op : Op} (h : ofByte? byte = some op) :
    op.countsFromOne = true := by
  have hall := forall_byte (P := fun byte => (ofByte? byte).all countsFromOne = true)
    (by decide +kernel) byte
  rwa [h] at hall

end Op

/-! ## The lower part of the stack -/

/-- The mistake of the contract an instruction ends with, if it does. -/
def Effect.halt? : Effect → Option Halt
  | finish (.halted reason) _ => some reason
  | _ => none

/-- The mistake of the contract a step ends with, if it does. -/
def Progress.halt? : Progress → Option Halt
  | ended (.halted reason) _ => some reason
  | _ => none

@[simp] theorem Effect.halt?_progress (e : Effect) (steps : Nat) :
    (e.progress steps).halt? = e.halt? := by
  cases e with
  | finish o f => cases o <;> rfl
  | _ => rfl

/-- The frame with more numbers below those on its stack. -/
def Frame.onto (below : List UInt256) (f : Frame) : Frame :=
  { f with stack := f.stack ++ below }

/-- The frame with only the `n` topmost numbers on its stack. -/
def Frame.alone (n : Nat) (f : Frame) : Frame := { f with stack := f.stack.take n }

/-- The effect with more numbers below those that it leaves. -/
def Effect.onto (below : List UInt256) : Effect → Effect
  | next f => .next (f.onto below)
  | finish o f => .finish o (f.onto below)
  | fault e f => .fault e (f.onto below)

/-- The machine with more numbers below those on its stack. -/
def Machine.onto (below : List UInt256) (m : Machine) : Machine := ⟨m.frame.onto below, m.steps⟩

/-- The machine with only the `n` topmost numbers on its stack. -/
def Machine.alone (n : Nat) (m : Machine) : Machine := ⟨m.frame.alone n, m.steps⟩

/-- What a step leads to, with more numbers below those that it leaves. -/
def Progress.onto (below : List UInt256) : Progress → Progress
  | running m => .running (m.onto below)
  | ended o m => .ended o (m.onto below)
  | stopped e m => .stopped e (m.onto below)

theorem Effect.progress_onto (below : List UInt256) (e : Effect) (steps : Nat) :
    (e.onto below).progress steps = (e.progress steps).onto below := by
  cases e <;> rfl

@[simp] theorem Effect.halt?_onto (below : List UInt256) (e : Effect) :
    (e.onto below).halt? = e.halt? := by
  cases e with
  | finish o f => cases o <;> rfl
  | _ => rfl

/-- **An effect that leaves `n` numbers**, or that is not the stack's
fault. -/
def Effect.Leaves (n : Nat) : Effect → Prop
  | next f => f.stack.length = n
  | finish (.halted reason) _ => reason ≠ .stackUnderflow ∧ reason ≠ .stackOverflow
  | _ => True

/-- Such an effect is no mistake in the use of the stack. -/
theorem Effect.Leaves.halt?_ne {n : Nat} {e : Effect} (h : e.Leaves n) :
    e.halt? ≠ some .stackUnderflow ∧ e.halt? ≠ some .stackOverflow := by
  cases e with
  | finish o f =>
    cases o with
    | halted reason =>
      exact ⟨fun heq => h.1 (Option.some.inj heq), fun heq => h.2 (Option.some.inj heq)⟩
    | _ => exact ⟨nofun, nofun⟩
  | _ => exact ⟨nofun, nofun⟩

/-- Where execution goes on from such an effect, the numbers that it leaves
are above those that were carried along. -/
theorem Effect.Leaves.exists_of_running {n steps : Nat} {e : Effect} {below : List UInt256}
    {m : Machine} (h : e.Leaves n) (hrunning : (e.onto below).progress steps = .running m) :
    ∃ results : List UInt256, results.length = n ∧ m.frame.stack = results ++ below := by
  cases e with
  | next f =>
    cases hrunning
    exact ⟨f.stack, h, rfl⟩
  | _ => cases hrunning

namespace Frame

variable {env : Env} {f : Frame}

/-- A frame is put together from the upper and the lower part of its
stack. -/
theorem onto_alone (n : Nat) (f : Frame) : (f.alone n).onto (f.stack.drop n) = f := by
  unfold onto alone
  rw [List.take_append_drop]

/-! ## The parts of an instruction -/

/-- **A part of an instruction that replaces** `taken` numbers of the stack
by `left` others. -/
structure Replaces (env : Env) (taken left : Nat) (e : Frame → Effect) : Prop where
  /-- Where there are fewer numbers, the stack underflows. -/
  underflows : ∀ f : Frame, f.stack.length < taken → ∃ g : Frame, e f = g.halt .stackUnderflow
  /-- Numbers below those that are taken are carried along, if there is room
  for those that are left. -/
  carries : ∀ (f : Frame) (below : List UInt256), f.stack.length = taken →
    left + below.length ≤ env.settings.stackLimit.toNat → e (f.onto below) = (e f).onto below
  /-- Where there are no other numbers, so many are left. -/
  leaves : ∀ f : Frame, f.stack.length = taken → left ≤ env.settings.stackLimit.toNat →
    (e f).Leaves left

section Parts

variable {taken left : Nat}

/-- An operand is taken, and it is one of those below which the rest is. -/
theorem replaces_pop {k : UInt256 → Frame → Effect} (hk : ∀ a, Replaces env taken left (k a)) :
    Replaces env (taken + 1) left fun f => f.pop k where
  underflows f h := by
    rcases hstack : f.stack with _ | ⟨a, rest⟩
    · refine ⟨f, ?_⟩
      unfold pop
      rw [hstack]
    · rw [hstack] at h
      rw [pop_of_stack hstack]
      exact (hk a).underflows _ (Nat.lt_of_succ_lt_succ h)
  carries f below hlen hroom := by
    obtain ⟨a, rest, hstack⟩ := List.exists_cons_of_length_eq_add_one hlen
    have hstack' : (f.onto below).stack = a :: (rest ++ below) := congrArg (· ++ below) hstack
    rw [hstack] at hlen
    rw [pop_of_stack hstack, pop_of_stack hstack']
    exact (hk a).carries { f with stack := rest } below (Nat.succ.inj hlen) hroom
  leaves f hlen hroom := by
    obtain ⟨a, rest, hstack⟩ := List.exists_cons_of_length_eq_add_one hlen
    rw [hstack] at hlen
    rw [pop_of_stack hstack]
    exact (hk a).leaves { f with stack := rest } (Nat.succ.inj hlen) hroom

theorem replaces_pop2 {k : UInt256 → UInt256 → Frame → Effect}
    (hk : ∀ a b, Replaces env taken left (k a b)) :
    Replaces env (taken + 2) left fun f => f.pop2 k :=
  replaces_pop fun a => replaces_pop (hk a)

theorem replaces_pop3 {k : UInt256 → UInt256 → UInt256 → Frame → Effect}
    (hk : ∀ a b c, Replaces env taken left (k a b c)) :
    Replaces env (taken + 3) left fun f => f.pop3 k :=
  replaces_pop2 fun a b => replaces_pop (hk a b)

/-- Several operands are taken at once. -/
theorem replaces_popMany (n : Nat) {k : List UInt256 → Frame → Effect}
    (hk : ∀ xs, Replaces env 0 left (k xs)) :
    Replaces env n left fun f => f.popMany n k where
  underflows _ h := ⟨_, if_neg (Nat.not_le.mpr h)⟩
  carries f below hlen hroom := by
    have hall : n ≤ f.stack.length := Nat.le_of_eq hlen.symm
    have hall' : n ≤ (f.onto below).stack.length :=
      Nat.le_trans hall (List.length_append ▸ Nat.le_add_right _ _)
    have htake : (f.onto below).stack.take n = f.stack.take n := List.take_append_of_le_length hall
    have hdrop : (f.onto below).stack.drop n = f.stack.drop n ++ below :=
      List.drop_append_of_le_length hall
    rw [popMany_of_le hall, popMany_of_le hall', htake, hdrop]
    refine (hk _).carries { f with stack := f.stack.drop n } below ?_ hroom
    exact List.length_drop.trans (Nat.sub_eq_zero_of_le (Nat.le_of_eq hlen))
  leaves f hlen hroom := by
    rw [popMany_of_le (Nat.le_of_eq hlen.symm)]
    refine (hk _).leaves { f with stack := f.stack.drop n } ?_ hroom
    exact List.length_drop.trans (Nat.sub_eq_zero_of_le (Nat.le_of_eq hlen))

/-- A result is put on the stack, perhaps of another frame. It may depend
on anything but the stack. -/
theorem replaces_push {g : Frame → Frame} {x : Frame → UInt256}
    (hg : ∀ f below, g (f.onto below) = (g f).onto below) (hstack : ∀ f, (g f).stack = f.stack)
    (hx : ∀ f below, x (f.onto below) = x f) :
    Replaces env 0 1 fun f => (g f).push env (x f) where
  underflows _ h := absurd h (Nat.not_lt_zero _)
  carries f below hlen hroom := by
    have hempty : (g f).stack = [] := (hstack f).trans (List.length_eq_zero_iff.mp hlen)
    have hroom : below.length < env.settings.stackLimit.toNat := by omega
    have hlt : (g f).stack.length < env.settings.stackLimit.toNat := by
      rw [hempty]
      exact Nat.lt_of_le_of_lt (Nat.zero_le _) hroom
    have hlt' : ((g f).onto below).stack.length < env.settings.stackLimit.toNat := by
      show ((g f).stack ++ below).length < _
      rwa [hempty]
    rw [hg, hx, push_of_lt hlt, push_of_lt hlt']
    rfl
  leaves f hlen hroom := by
    have hempty : (g f).stack = [] := (hstack f).trans (List.length_eq_zero_iff.mp hlen)
    have hlt : (g f).stack.length < env.settings.stackLimit.toNat := by
      rw [hempty]
      exact hroom
    rw [push_of_lt hlt]
    exact congrArg (fun stack => stack.length + 1) hempty

/-- A result that the operands determine is put on the stack. -/
theorem replaces_result (x : UInt256) : Replaces env 0 1 fun f => f.push env x :=
  replaces_push (g := id) (x := fun _ => x) (fun _ _ => rfl) (fun _ => rfl) fun _ _ => rfl

/-- Execution goes on with another frame and the same stack. -/
theorem replaces_next {g : Frame → Frame} (hg : ∀ f below, g (f.onto below) = (g f).onto below)
    (hstack : ∀ f, (g f).stack = f.stack) : Replaces env 0 0 fun f => .next (g f) where
  underflows _ h := absurd h (Nat.not_lt_zero _)
  carries f below _ _ := congrArg Effect.next (hg f below)
  leaves f hlen _ := (congrArg List.length (hstack f)).trans hlen

/-- Execution ends without a mistake in the use of the stack. -/
theorem replaces_finish {o : Outcome}
    (ho : ∀ reason, o = .halted reason → reason ≠ .stackUnderflow ∧ reason ≠ .stackOverflow) :
    Replaces env 0 0 fun f => .finish o f where
  underflows _ h := absurd h (Nat.not_lt_zero _)
  carries _ _ _ _ := rfl
  leaves _ _ _ := by
    cases o with
    | halted reason => exact ho reason rfl
    | _ => trivial

/-- Execution is stopped. -/
theorem replaces_fault (e : Fault) : Replaces env 0 0 fun f => .fault e f where
  underflows _ h := absurd h (Nat.not_lt_zero _)
  carries _ _ _ _ := rfl
  leaves _ _ _ := trivial

/-- Memory is reserved when all operands are off the stack. -/
theorem replaces_reserve (offset len : UInt256) {k : Frame → Effect}
    (hk : Replaces env 0 left k) : Replaces env 0 left fun f => f.reserve env offset len k where
  underflows _ h := absurd h (Nat.not_lt_zero _)
  carries f below hlen hroom := by
    unfold reserve
    dsimp only
    split
    · exact hk.carries f below hlen hroom
    · split
      · rfl
      · split
        · rfl
        · exact hk.carries { f with memory := f.memory.grow _ } below hlen hroom
  leaves f hlen hroom := by
    rcases reserve_cases env f offset len k with ⟨e, heq⟩ | ⟨memory, -, heq⟩
    · rw [heq]
      trivial
    · rw [heq]
      exact hk.leaves { f with memory := memory } hlen hroom

theorem replaces_fetch (offset len : UInt256) {k : Bytes → Frame → Effect}
    (hk : ∀ bs, Replaces env 0 left (k bs)) :
    Replaces env 0 left fun f => f.fetch env offset len k :=
  replaces_reserve offset len {
    underflows := fun f h => (hk (f.memory.read offset.toNat len.toNat)).underflows f h
    carries := fun f below => (hk (f.memory.read offset.toNat len.toNat)).carries f below
    leaves := fun f => (hk (f.memory.read offset.toNat len.toNat)).leaves f }

theorem replaces_put (offset len : UInt256) (bs : Unit → Bytes) :
    Replaces env 0 0 fun f => f.put env offset len bs :=
  replaces_reserve offset len (replaces_next (fun _ _ => rfl) fun _ => rfl)

theorem replaces_jumpTo (dest : UInt256) : Replaces env 0 0 fun f => f.jumpTo env dest := by
  by_cases htarget : env.targets.getD dest.toNat false = true
  · simp only [jumpTo, if_pos htarget]
    exact replaces_next (fun _ _ => rfl) fun _ => rfl
  · simp only [jumpTo, if_neg htarget]
    exact replaces_finish (by rintro _ ⟨⟩; exact ⟨Halt.noConfusion, Halt.noConfusion⟩)

end Parts

/-! ## Copies and exchanges -/

variable {gas : Nat} {byte : UInt8}

/-- A copy of a number that is there is put on the stack. -/
theorem perform_dup {n : Nat} {x : UInt256} (hx : f.stack[n - 1]? = some x) :
    f.perform env gas byte (.dup n) = f.push env x := by
  unfold perform
  simp only [hx]

/-- The number at the top changes places with one below it. -/
theorem perform_swap {top x : UInt256} {between rest : List UInt256}
    (hstack : f.stack = top :: (between ++ x :: rest)) :
    f.perform env gas byte (.swap (between.length + 1))
      = .next { f with stack := x :: (between ++ top :: rest) } := by
  have hx : (top :: (between ++ x :: rest))[between.length + 1]? = some x := by
    rw [List.getElem?_cons_succ, List.getElem?_append_right (Nat.le_refl _), Nat.sub_self]
    rfl
  have hset : (between ++ x :: rest).set between.length top = between ++ top :: rest := by
    rw [List.set_append_right _ _ (Nat.le_refl _), Nat.sub_self]
    rfl
  unfold perform
  simp only [hstack, hx, Nat.add_sub_cancel, hset]

/-- The two numbers that change places, what is between them and what is
below. -/
theorem exists_exchanged {n : Nat} {stack : List UInt256} (hpos : 0 < n)
    (h : n < stack.length) :
    ∃ top between x rest, stack = top :: (between ++ x :: rest) ∧ n = between.length + 1 := by
  obtain ⟨j, rfl⟩ : ∃ j, n = j + 1 := Nat.exists_eq_succ_of_ne_zero (Nat.ne_of_gt hpos)
  cases stack with
  | nil => cases h
  | cons top tail =>
    have hj : j < tail.length := Nat.lt_of_succ_lt_succ h
    refine ⟨top, tail.take j, tail[j], tail.drop (j + 1), ?_, ?_⟩
    · rw [← List.drop_eq_getElem_cons hj, List.take_append_drop]
    · rw [List.length_take_of_le (Nat.le_of_lt hj)]

theorem replaces_dup {n : Nat} (hpos : 0 < n) :
    Replaces env n (n + 1) fun f => f.perform env gas byte (.dup n) where
  underflows f h := by
    have hnone : f.stack[n - 1]? = none := List.getElem?_eq_none (Nat.le_sub_one_of_lt h)
    refine ⟨f, ?_⟩
    unfold perform
    simp only [hnone]
  carries f below hlen hroom := by
    have hin : n - 1 < f.stack.length := by omega
    have hx := List.getElem?_eq_getElem hin
    have hx' : (f.onto below).stack[n - 1]? = some f.stack[n - 1] :=
      (List.getElem?_append_left hin).trans hx
    have hlt : f.stack.length < env.settings.stackLimit.toNat := by omega
    have hlt' : (f.onto below).stack.length < env.settings.stackLimit.toNat := by
      show (f.stack ++ below).length < _
      rw [List.length_append]
      omega
    rw [perform_dup hx, perform_dup hx', push_of_lt hlt, push_of_lt hlt']
    rfl
  leaves f hlen hroom := by
    have hin : n - 1 < f.stack.length := by omega
    have hlt : f.stack.length < env.settings.stackLimit.toNat := by omega
    rw [perform_dup (List.getElem?_eq_getElem hin), push_of_lt hlt]
    exact congrArg Nat.succ hlen

theorem replaces_swap {n : Nat} (hpos : 0 < n) :
    Replaces env (n + 1) (n + 1) fun f => f.perform env gas byte (.swap n) where
  underflows f h := by
    have hnone : f.stack[n]? = none := List.getElem?_eq_none (Nat.le_of_lt_succ h)
    refine ⟨f, ?_⟩
    rw [perform, hnone]
    cases f.stack <;> rfl
  carries f below hlen _ := by
    obtain ⟨top, between, x, rest, hstack, rfl⟩ :=
      exists_exchanged hpos (Nat.lt_of_succ_le (Nat.le_of_eq hlen.symm))
    have hstack' : (f.onto below).stack = top :: (between ++ x :: (rest ++ below)) := by
      refine (congrArg (· ++ below) hstack).trans ?_
      simp
    rw [perform_swap hstack, perform_swap hstack']
    simp [Effect.onto, onto]
  leaves f hlen _ := by
    obtain ⟨top, between, x, rest, hstack, rfl⟩ :=
      exists_exchanged hpos (Nat.lt_of_succ_le (Nat.le_of_eq hlen.symm))
    rw [perform_swap hstack]
    rw [hstack] at hlen
    simpa [Effect.Leaves] using hlen

/-! ## Instructions -/

/-- **Every instruction replaces its operands by its results.** -/
theorem replaces_perform (env : Env) (gas : Nat) (byte : UInt8) {op : Op}
    (hop : op.countsFromOne = true) :
    Replaces env op.operands op.results fun f => f.perform env gas byte op := by
  cases op with
  | stop => exact replaces_finish (by rintro _ ⟨⟩)
  | jumpDest => exact replaces_next (fun _ _ => rfl) fun _ => rfl
  | invalid =>
    exact replaces_finish (by rintro _ ⟨⟩; exact ⟨Halt.noConfusion, Halt.noConfusion⟩)
  | external => exact replaces_fault _
  | unary | record | callDataLoad => exact replaces_pop fun _ => replaces_result _
  | storageLoad =>
    exact replaces_pop fun key => replaces_push (g := id) (x := fun f => f.storage.getD key 0)
      (fun _ _ => rfl) (fun _ => rfl) fun _ _ => rfl
  | transientLoad =>
    exact replaces_pop fun key => replaces_push (g := id) (x := fun f => f.transient.getD key 0)
      (fun _ _ => rfl) (fun _ => rfl) fun _ _ => rfl
  | binary => exact replaces_pop2 fun _ _ => replaces_result _
  | ternary => exact replaces_pop3 fun _ _ _ => replaces_result _
  | keccak256 =>
    exact replaces_pop2 fun offset len => replaces_fetch offset len fun _ => replaces_result _
  | context q =>
    -- no question is about the stack
    exact replaces_push (g := id) (x := fun f => f.answer env gas q) (fun _ _ => rfl)
      (fun _ => rfl) fun _ _ => by cases q <;> rfl
  | callDataCopy | codeCopy => exact replaces_pop3 fun dest _ len => replaces_put dest len _
  | returnDataCopy =>
    refine replaces_pop3 fun _ source len => ?_
    by_cases hnone : source = 0 ∧ len = 0
    · simp only [if_pos hnone]
      exact replaces_next (fun _ _ => rfl) fun _ => rfl
    · simp only [if_neg hnone]
      exact replaces_finish (by rintro _ ⟨⟩; exact ⟨Halt.noConfusion, Halt.noConfusion⟩)
  | pop => exact replaces_pop fun _ => replaces_next (fun _ _ => rfl) fun _ => rfl
  | memoryLoad =>
    exact replaces_pop fun offset => replaces_fetch offset 32 fun _ => replaces_result _
  | memoryStore => exact replaces_pop2 fun offset _ => replaces_put offset 32 _
  | memoryStore8 => exact replaces_pop2 fun offset _ => replaces_put offset 1 _
  | memoryCopy =>
    exact replaces_pop3 fun dest source len => replaces_reserve dest len <|
      replaces_fetch source len fun _ => replaces_next (fun _ _ => rfl) fun _ => rfl
  | storageStore | transientStore =>
    exact replaces_pop2 fun _ _ => replaces_next (fun _ _ => rfl) fun _ => rfl
  | jump => exact replaces_pop fun dest => replaces_jumpTo dest
  | jumpIf =>
    refine replaces_pop2 fun dest condition => ?_
    by_cases hzero : condition = 0
    · simp only [if_pos hzero]
      exact replaces_next (fun _ _ => rfl) fun _ => rfl
    · simp only [if_neg hzero]
      exact replaces_jumpTo dest
  | push size =>
    exact replaces_push (g := fun f => { f with pc := f.pc + size })
      (x := fun f => numberOfBytes (zeroExtended env.code f.pc size)) (fun _ _ => rfl)
      (fun _ => rfl) fun _ _ => rfl
  | dup n => exact replaces_dup (of_decide_eq_true hop)
  | swap n => exact replaces_swap (of_decide_eq_true hop)
  | log n =>
    exact replaces_pop2 fun offset len => replaces_popMany n fun _ => replaces_fetch offset len
      fun _ => replaces_next (fun _ _ => rfl) fun _ => rfl
  | return_ | revert =>
    exact replaces_pop2 fun offset len => replaces_fetch offset len fun _ =>
      replaces_finish (by rintro _ ⟨⟩)

/-- With its operands there, an instruction fails for want of room if it
leaves one number more than it takes. -/
theorem perform_of_full (env : Env) (gas : Nat) (byte : UInt8) {op : Op}
    (hop : op.countsFromOne = true) (hmore : op.results = op.operands + 1)
    (hle : op.operands ≤ f.stack.length)
    (hfull : env.settings.stackLimit.toNat ≤ f.stack.length) :
    ∃ g : Frame, f.perform env gas byte op = g.halt .stackOverflow := by
  cases op with
  | context | push => exact ⟨_, if_neg (Nat.not_lt.mpr hfull)⟩
  | dup n =>
    have hpos : 0 < n := of_decide_eq_true hop
    have hle : n ≤ f.stack.length := hle
    have hin : n - 1 < f.stack.length := by omega
    rw [perform_dup (List.getElem?_eq_getElem hin)]
    exact ⟨_, if_neg (Nat.not_lt.mpr hfull)⟩
  | _ => simp [Op.results, Op.operands] at hmore

end Frame

/-- No instruction leaves more than one number more than it takes. -/
theorem Op.results_le (op : Op) : op.results ≤ op.operands + 1 := by
  cases op <;> simp [results, operands]

/-- **With its operands there and room for its results, an instruction does
what it does without the rest of the stack**, and carries the rest
along. -/
theorem Frame.perform_of_le (env : Env) {f : Frame} (gas : Nat) (byte : UInt8) {op : Op}
    (hop : op.countsFromOne = true) (hle : op.operands ≤ f.stack.length)
    (hroom : op.results + (f.stack.length - op.operands) ≤ env.settings.stackLimit.toNat) :
    f.perform env gas byte op
        = ((f.alone op.operands).perform env gas byte op).onto (f.stack.drop op.operands)
      ∧ ((f.alone op.operands).perform env gas byte op).Leaves op.results := by
  have hreplaces := replaces_perform env gas byte hop
  have hlen : (f.alone op.operands).stack.length = op.operands := List.length_take_of_le hle
  refine ⟨?_, hreplaces.leaves _ hlen (Nat.le_trans (Nat.le_add_right _ _) hroom)⟩
  have hcarries := hreplaces.carries (f.alone op.operands) (f.stack.drop op.operands) hlen
    (by rw [List.length_drop]; exact hroom)
  rwa [onto_alone] at hcarries

/-! ## Executions -/

namespace Machine

/-- **A step replaces the operands of its instruction by the results.** -/
structure StackDiscipline (env : Env) (m : Machine) (op : Op) : Prop where
  /-- The stack underflows exactly if there are fewer numbers than
  operands. -/
  underflow_iff : (m.step env).halt? = some .stackUnderflow ↔ m.frame.stack.length < op.operands
  /-- It overflows exactly if it was full and one number more is left than
  was taken. -/
  overflow_iff : (m.step env).halt? = some .stackOverflow ↔ op.operands ≤ m.frame.stack.length
    ∧ op.results = op.operands + 1 ∧ m.frame.stack.length = env.settings.stackLimit.toNat
  /-- In all other cases the step is the one of the machine that has nothing
  but the operands, with the rest of the stack carried along. -/
  step_eq : op.operands ≤ m.frame.stack.length → (m.step env).halt? ≠ some .stackOverflow →
    m.step env = ((m.alone op.operands).step env).onto (m.frame.stack.drop op.operands)
  /-- Where execution goes on, the operands have become results. -/
  stack_eq : ∀ m', m.step env = .running m' → ∃ results : List UInt256,
    results.length = op.results ∧ m'.frame.stack = results ++ m.frame.stack.drop op.operands

variable {settings : Settings} {code calldata : Bytes} {m : Machine} {op : Op}

/-- The step that carries out an instruction below the limit. -/
theorem step_eq_perform_of_lt (calldata : Bytes) (hsteps : m.steps < settings.stepLimit.toNat)
    {byte : UInt8} (hbyte : code[m.frame.pc]? = some byte) (hop : Op.ofByte? byte = some op) :
    m.step (Env.new settings code calldata)
      = (m.frame.advance.perform (Env.new settings code calldata)
        (settings.stepLimit.toNat - (m.steps + 1)) byte op).progress (m.steps + 1) :=
  step_eq_perform (List.getElem?_toArray.trans hbyte) hop (charge?_of_lt hsteps)

section Discipline

variable (calldata : Bytes) (hsteps : m.steps < settings.stepLimit.toNat)
  (hop : m.op? code = some op)
include hsteps hop

/-- An operand is missing. -/
theorem stackDiscipline_of_missing (hlt : m.frame.stack.length < op.operands) :
    m.StackDiscipline (Env.new settings code calldata) op := by
  obtain ⟨byte, hbyte, hbyteOp⟩ := Option.bind_eq_some_iff.mp hop
  obtain ⟨g, heffect⟩ := (Frame.replaces_perform (Env.new settings code calldata)
    (settings.stepLimit.toNat - (m.steps + 1)) byte
    (Op.countsFromOne_of_ofByte? hbyteOp)).underflows m.frame.advance hlt
  have hhalt : (m.step (Env.new settings code calldata)).halt? = some .stackUnderflow := by
    rw [step_eq_perform_of_lt calldata hsteps hbyte hbyteOp, heffect]
    rfl
  refine ⟨iff_of_true hhalt hlt, iff_of_false ?_ ?_, ?_, ?_⟩
  · rw [hhalt]
    exact nofun
  · exact fun h => absurd h.1 (Nat.not_le.mpr hlt)
  · exact fun h => absurd h (Nat.not_le.mpr hlt)
  · intro m' hrunning
    rw [hrunning] at hhalt
    cases hhalt

/-- The operands are there, and there is no room for one number more. -/
theorem stackDiscipline_of_full (hle : op.operands ≤ m.frame.stack.length)
    (hmore : op.results = op.operands + 1)
    (hfull : m.frame.stack.length = settings.stackLimit.toNat) :
    m.StackDiscipline (Env.new settings code calldata) op := by
  obtain ⟨byte, hbyte, hbyteOp⟩ := Option.bind_eq_some_iff.mp hop
  obtain ⟨g, heffect⟩ := Frame.perform_of_full (Env.new settings code calldata)
    (f := m.frame.advance) (settings.stepLimit.toNat - (m.steps + 1)) byte
    (Op.countsFromOne_of_ofByte? hbyteOp) hmore hle (Nat.le_of_eq hfull.symm)
  have hhalt : (m.step (Env.new settings code calldata)).halt? = some .stackOverflow := by
    rw [step_eq_perform_of_lt calldata hsteps hbyte hbyteOp, heffect]
    rfl
  refine ⟨iff_of_false ?_ (Nat.not_lt.mpr hle), iff_of_true hhalt ⟨hle, hmore, hfull⟩, ?_, ?_⟩
  · rw [hhalt]
    exact nofun
  · exact fun _ h => absurd hhalt h
  · intro m' hrunning
    rw [hrunning] at hhalt
    cases hhalt

/-- The operands are there, and there is room for the results. -/
theorem stackDiscipline_of_room (hle : op.operands ≤ m.frame.stack.length)
    (hroom : op.results + (m.frame.stack.length - op.operands) ≤ settings.stackLimit.toNat) :
    m.StackDiscipline (Env.new settings code calldata) op := by
  obtain ⟨byte, hbyte, hbyteOp⟩ := Option.bind_eq_some_iff.mp hop
  have hstep := step_eq_perform_of_lt calldata hsteps hbyte hbyteOp
  have halone := step_eq_perform_of_lt (m := m.alone op.operands) calldata hsteps hbyte hbyteOp
  obtain ⟨hcarried, hleaves⟩ := Frame.perform_of_le (Env.new settings code calldata)
    (f := m.frame.advance) (settings.stepLimit.toNat - (m.steps + 1)) byte
    (Op.countsFromOne_of_ofByte? hbyteOp) hle hroom
  have hhalt := hleaves.halt?_ne
  rw [← Effect.halt?_onto (m.frame.advance.stack.drop op.operands), ← hcarried,
    ← Effect.halt?_progress _ (m.steps + 1), ← hstep] at hhalt
  refine ⟨iff_of_false hhalt.1 (Nat.not_lt.mpr hle), iff_of_false hhalt.2 ?_, fun _ _ => ?_, ?_⟩
  · rintro ⟨-, hmore, hfull⟩
    have hfull : m.frame.stack.length = settings.stackLimit.toNat := hfull
    omega
  · rw [hstep, halone, hcarried, Effect.progress_onto]
    rfl
  · intro m' hrunning
    rw [hstep, hcarried] at hrunning
    exact hleaves.exists_of_running hrunning

/-- **Every instruction keeps the discipline**, on a stack that is not too
deep. -/
theorem stackDiscipline_of_le (hdepth : m.frame.stack.length ≤ settings.stackLimit.toNat) :
    m.StackDiscipline (Env.new settings code calldata) op := by
  have hmore := op.results_le
  rcases Nat.lt_or_ge m.frame.stack.length op.operands with hlt | hle
  · exact stackDiscipline_of_missing calldata hsteps hop hlt
  · by_cases hfull : op.results = op.operands + 1
        ∧ m.frame.stack.length = settings.stackLimit.toNat
    · exact stackDiscipline_of_full calldata hsteps hop hle hfull.1 hfull.2
    · exact stackDiscipline_of_room calldata hsteps hop hle (by omega)

end Discipline

/-- A copy of a number goes to the top. -/
theorem step_of_dup (calldata : Bytes) (hsteps : m.steps < settings.stepLimit.toNat) {n : Nat}
    (hop : m.op? code = some (.dup n)) {x : UInt256} (hx : m.frame.stack[n - 1]? = some x)
    (hroom : m.frame.stack.length < settings.stackLimit.toNat) :
    m.step (Env.new settings code calldata)
      = .running ⟨{ m.frame.advance with stack := x :: m.frame.stack }, m.steps + 1⟩ := by
  have hroom : m.frame.stack.length
      < (Env.new settings code calldata).settings.stackLimit.toNat := hroom
  obtain ⟨byte, hbyte, hop⟩ := Option.bind_eq_some_iff.mp hop
  rw [step_eq_perform_of_lt calldata hsteps hbyte hop, Frame.perform_dup (f := m.frame.advance) hx,
    Frame.push_of_lt (f := m.frame.advance) hroom]
  rfl

/-- Two numbers change places. -/
theorem step_of_swap (calldata : Bytes) (hsteps : m.steps < settings.stepLimit.toNat)
    {top x : UInt256} {between rest : List UInt256}
    (hop : m.op? code = some (.swap (between.length + 1)))
    (hstack : m.frame.stack = top :: (between ++ x :: rest)) :
    m.step (Env.new settings code calldata)
      = .running ⟨{ m.frame.advance with stack := x :: (between ++ top :: rest) },
        m.steps + 1⟩ := by
  obtain ⟨byte, hbyte, hop⟩ := Option.bind_eq_some_iff.mp hop
  rw [step_eq_perform_of_lt calldata hsteps hbyte hop,
    Frame.perform_swap (f := m.frame.advance) hstack]
  rfl

/-- A byte that is no instruction is a mistake of the contract. -/
theorem step_of_undefined (calldata : Bytes) (hsteps : m.steps < settings.stepLimit.toNat)
    {byte : UInt8} (hbyte : code[m.frame.pc]? = some byte) (hop : Op.ofByte? byte = none) :
    m.step (Env.new settings code calldata)
      = .ended (.halted (.invalidOpcode byte)) ⟨m.frame.advance, m.steps + 1⟩ := by
  rw [step_eq (List.getElem?_toArray.trans hbyte) (charge?_of_lt hsteps), Frame.dispatch, hop]
  rfl

/-- **Every instruction finds its operands on the stack and leaves its
results there.** After any number of steps, and below the limit of
instructions,

* an instruction keeps to its operands and its results
  (`Machine.StackDiscipline`);
* to duplicate is to put a copy of one number on the stack, and to swap is
  to let the number at the top change places with one below it, and nothing
  else;
* a byte that is no instruction ends the execution, and an instruction that
  is not carried out stops it, whatever is on the stack. -/
theorem keeps_stack_discipline (settings : Settings) (code calldata : Bytes) (n : Nat) :
    let env := Env.new settings code calldata
    let m := after env n
    m.steps < settings.stepLimit.toNat →
      (∀ op, m.op? code = some op → m.StackDiscipline env op)
      ∧ (∀ k x, m.op? code = some (.dup k) → m.frame.stack[k - 1]? = some x →
        m.frame.stack.length < settings.stackLimit.toNat →
        m.step env
          = .running ⟨{ m.frame.advance with stack := x :: m.frame.stack }, m.steps + 1⟩)
      ∧ (∀ top between x rest, m.op? code = some (.swap (between.length + 1)) →
        m.frame.stack = top :: (between ++ x :: rest) →
        m.step env
          = .running ⟨{ m.frame.advance with stack := x :: (between ++ top :: rest) },
            m.steps + 1⟩)
      ∧ ∀ byte, code[m.frame.pc]? = some byte →
        (Op.ofByte? byte = none → m.step env
          = .ended (.halted (.invalidOpcode byte)) ⟨m.frame.advance, m.steps + 1⟩)
        ∧ ∀ op, Op.ofByte? byte = some (.external op) → m.step env
          = .stopped (.unsupportedOpcode byte op) ⟨m.frame.advance, m.steps + 1⟩ := by
  intro env m hsteps
  have hdepth : m.frame.stack.length ≤ settings.stackLimit.toNat :=
    (within_frame_after env n).stack_le
  refine ⟨fun op hop => stackDiscipline_of_le calldata hsteps hop hdepth,
    fun k x hop hx hroom => step_of_dup calldata hsteps hop hx hroom,
    fun top between x rest hop hstack => step_of_swap calldata hsteps hop hstack,
    fun byte hbyte => ⟨step_of_undefined calldata hsteps hbyte, fun op hop => ?_⟩⟩
  exact step_eq_perform_of_lt calldata hsteps hbyte hop

/-- Settings with room for three numbers on the stack. -/
def narrowStack : Settings := { Settings.standard with stackLimit := 3 }

/-- Two pushes, an exchange and two duplications, of which the second finds
no room; an entry with one topic, an addition, a byte that is no
instruction, and one that is not carried out. -/
def stackingCode : Bytes := [0x60, 7, 0x60, 9, 0x90, 0x81, 0x80, 0xa1, 0x01, 0x0c, 0xf1]

/-- The numbers of this code change places and are copied until there is
no room; the entry takes all of them, and nothing is left to add. -/
theorem keeps_stack_discipline_narrow :
    (∀ n ≤ 8, (after (Env.new narrowStack stackingCode []) n).steps
        < narrowStack.stepLimit.toNat)
      ∧ (after (Env.new narrowStack stackingCode []) 3).frame.stack = [7, 9]
      ∧ (after (Env.new narrowStack stackingCode []) 4).frame.stack = [9, 7, 9]
      ∧ ((after (Env.new narrowStack stackingCode []) 4).step
        (Env.new narrowStack stackingCode [])).halt? = some .stackOverflow
      ∧ ((after (Env.new narrowStack stackingCode []) 5).step
        (Env.new narrowStack stackingCode [])).halt? = none
      ∧ ((after (Env.new narrowStack stackingCode []) 6).step
        (Env.new narrowStack stackingCode [])).halt? = some .stackUnderflow
      ∧ ((after (Env.new narrowStack stackingCode []) 7).step
        (Env.new narrowStack stackingCode [])).halt? = some (.invalidOpcode 0x0c)
      ∧ ((after (Env.new narrowStack stackingCode []) 8).step
        (Env.new narrowStack stackingCode [])).fault?
          = some (.unsupportedOpcode 0xf1 .call) := by
  have hsteps : ∀ n ≤ 8, (after (Env.new narrowStack stackingCode []) n).steps
      < narrowStack.stepLimit.toNat := by decide +kernel
  have hall (n : Nat) (hn : n ≤ 8) :=
    keeps_stack_discipline narrowStack stackingCode [] n (hsteps n hn)
  refine ⟨hsteps, ?_, ?_, ?_, ?_, ?_, ?_, ?_⟩
  · rw [after, (hall 2 (by decide)).2.2.1 9 [] 7 [] (by decide +kernel) (by decide +kernel)]
    rfl
  · rw [after, (hall 3 (by decide)).2.1 2 9 (by decide +kernel) (by decide +kernel)
      (by decide +kernel)]
    decide +kernel
  · exact ((hall 4 (by decide)).1 (.dup 1) (by decide +kernel)).overflow_iff.mpr
      (by decide +kernel)
  · rw [((hall 5 (by decide)).1 (.log 1) (by decide +kernel)).step_eq (by decide +kernel)
      (by decide +kernel)]
    decide +kernel
  · exact ((hall 6 (by decide)).1 (.binary .add) (by decide +kernel)).underflow_iff.mpr
      (by decide +kernel)
  · rw [((hall 7 (by decide)).2.2.2 0x0c (by decide +kernel)).1 (by decide +kernel)]
    rfl
  · rw [((hall 8 (by decide)).2.2.2 0xf1 (by decide +kernel)).2 .call (by decide +kernel)]
    rfl

end Machine

end EthCall.Evm
