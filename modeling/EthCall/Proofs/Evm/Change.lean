import EthCall.Evm.Machine
import Mathlib.Logic.Relation

/-!
# What instructions are made of

There are some hundred and forty instructions, but few things that any of
them does to a frame: it takes operands, puts a result on the stack, grows
the memory, writes into memory that is there, changes a storage, logs, or
moves the position. A `Frame.Change` is one of these, together with what
has been checked by then.

The frame an instruction leaves behind is always some changes away from
the one it was given, also where the instruction fails half way
(`Frame.changes_perform`). So whatever every change keeps, every
instruction keeps (`Frame.invariant_dispatch`), and which instructions
make which change is said only here.
-/

namespace EthCall.Evm

/-! ## Stretches of memory -/

namespace Memory

/-- Every byte of a stretch is in use. -/
def Covers (m : Memory) (offset len : Nat) : Prop :=
  ∀ i < len, offset + i < m.size

theorem Covers.mono {m m' : Memory} {offset len : Nat} (h : m.Covers offset len)
    (hsize : m.size ≤ m'.size) : m'.Covers offset len :=
  fun i hi => Nat.lt_of_lt_of_le (h i hi) hsize

/-- Writing uses no more memory. -/
@[simp] theorem size_write (m : Memory) (offset : Nat) (bs : Bytes) :
    (m.write offset bs).size = m.size := by
  induction bs generalizing m offset with
  | nil => rfl
  | cons b rest ih =>
    rw [write, ih]
    rfl

@[simp] theorem length_read (m : Memory) (offset len : Nat) :
    (m.read offset len).length = len := by
  unfold read
  rw [List.length_map, List.length_range]

end Memory

@[simp] theorem length_zeroExtended (source : Array UInt8) (offset len : Nat) :
    (zeroExtended source offset len).length = len := by
  unfold zeroExtended
  rw [List.length_map, List.length_range]

namespace Op

/-- The instructions that write into memory. -/
def writesMemory : Op → Bool
  | callDataCopy | codeCopy | memoryStore | memoryStore8 | memoryCopy => true
  | _ => false

/-- The instructions that go on elsewhere. -/
def jumps : Op → Bool
  | jump | jumpIf => true
  | _ => false

end Op

namespace Frame

/-- Whole words reach at least as far. -/
theorem le_wholeWords (last : Nat) : last ≤ wholeWords last := by
  unfold wholeWords
  omega

theorem dvd_wholeWords (last : Nat) : 32 ∣ wholeWords last :=
  Nat.dvd_mul_left 32 _

/-- **The memory a frame has once a stretch is granted**: what it had if
the stretch has no bytes, and otherwise whole words up to its end. -/
inductive Granted (env : Env) (f : Frame) (offset len : UInt256) : Memory → Prop where
  /-- There is nothing to grant. -/
  | empty (h : len = 0) : Granted env f offset len f.memory
  /-- The memory reaches behind the stretch. -/
  | grown (h : wholeWords (offset.toNat + len.toNat) ≤ env.settings.memoryLimit.toNat) :
    Granted env f offset len (f.memory.grow (wholeWords (offset.toNat + len.toNat)))

variable {env : Env} {f : Frame} {offset len : UInt256} {memory : Memory}

theorem Granted.covers (h : Granted env f offset len memory) :
    memory.Covers offset.toNat len.toNat := by
  cases h with
  | empty h =>
    subst h
    exact fun i hi => absurd hi (Nat.not_lt_zero i)
  | grown h =>
    intro i hi
    have hlast := le_wholeWords (offset.toNat + len.toNat)
    show offset.toNat + i < max f.memory.size (wholeWords (offset.toNat + len.toNat))
    omega

theorem Granted.size_le (h : Granted env f offset len memory) : f.memory.size ≤ memory.size := by
  cases h with
  | empty => exact Nat.le_refl _
  | grown => exact Nat.le_max_left _ _

/-- **A stretch is granted or the execution is stopped.** -/
theorem reserve_cases (env : Env) (f : Frame) (offset len : UInt256) (k : Frame → Effect) :
    (∃ e, f.reserve env offset len k = .fault e f)
      ∨ ∃ memory, Granted env f offset len memory
        ∧ f.reserve env offset len k = k { f with memory := memory } := by
  unfold reserve
  split
  case isTrue hlen => exact .inr ⟨f.memory, .empty hlen, rfl⟩
  case isFalse hlen =>
    dsimp only
    split
    · exact .inl ⟨_, rfl⟩
    · split
      · exact .inl ⟨_, rfl⟩
      · rename_i hlimit
        exact .inr ⟨_, .grown (Nat.le_of_not_lt hlimit), rfl⟩

/-! ## Operands and results -/

theorem pop_of_stack {a : UInt256} {rest : List UInt256} (h : f.stack = a :: rest)
    (k : UInt256 → Frame → Effect) : f.pop k = k a { f with stack := rest } := by
  unfold pop
  rw [h]

theorem pop2_of_stack {a b : UInt256} {rest : List UInt256} (h : f.stack = a :: b :: rest)
    (k : UInt256 → UInt256 → Frame → Effect) : f.pop2 k = k a b { f with stack := rest } := by
  unfold pop2
  rw [pop_of_stack h]
  exact pop_of_stack rfl _

theorem pop3_of_stack {a b c : UInt256} {rest : List UInt256}
    (h : f.stack = a :: b :: c :: rest) (k : UInt256 → UInt256 → UInt256 → Frame → Effect) :
    f.pop3 k = k a b c { f with stack := rest } := by
  unfold pop3
  rw [pop2_of_stack h]
  exact pop_of_stack rfl _

theorem popMany_of_le {n : Nat} (h : n ≤ f.stack.length) (k : List UInt256 → Frame → Effect) :
    f.popMany n k = k (f.stack.take n) { f with stack := f.stack.drop n } :=
  if_pos h

theorem push_of_lt (h : f.stack.length < env.settings.stackLimit.toNat) (x : UInt256) :
    f.push env x = .next { f with stack := x :: f.stack } :=
  if_pos h

/-! ## Changes -/

/-- **One of the changes that an instruction is made of.** -/
inductive Change (env : Env) : Op → Frame → Frame → Prop where
  /-- Numbers are taken from the stack. -/
  | take (op : Op) (f : Frame) {stack : List UInt256} (h : stack <:+ f.stack) :
    Change env op f { f with stack := stack }
  /-- A number is put on the stack, which has room for it. -/
  | put (op : Op) (f : Frame) (x : UInt256)
    (h : f.stack.length < env.settings.stackLimit.toNat) :
    Change env op f { f with stack := x :: f.stack }
  /-- Two numbers of the stack are exchanged. -/
  | exchange (n : Nat) (f : Frame) {stack : List UInt256} (h : stack.length = f.stack.length) :
    Change env (.swap n) f { f with stack := stack }
  /-- A stretch of memory is granted. -/
  | grant (op : Op) (f : Frame) {offset len : UInt256} {memory : Memory}
    (h : Granted env f offset len memory) : Change env op f { f with memory := memory }
  /-- Memory that is in use is written to. -/
  | write {op : Op} (hop : op.writesMemory = true) (f : Frame) {offset : Nat} {bs : Bytes}
    (h : f.memory.Covers offset bs.length) :
    Change env op f { f with memory := f.memory.write offset bs }
  /-- The storage changes at a key. -/
  | store (f : Frame) (key x : UInt256) :
    Change env .storageStore f { f with storage := f.storage.insert key x }
  /-- The transient storage changes at a key. -/
  | storeTransient (f : Frame) (key x : UInt256) :
    Change env .transientStore f { f with transient := f.transient.insert key x }
  /-- Something is logged. -/
  | log (n : Nat) (f : Frame) (entry : Log) :
    Change env (.log n) f { f with logs := f.logs.push entry }
  /-- Pushed bytes are passed. -/
  | pass (size : Nat) (f : Frame) : Change env (.push size) f { f with pc := f.pc + size }
  /-- Execution goes on elsewhere, where it may. -/
  | jump {op : Op} (hop : op.jumps = true) (f : Frame) {dest : Nat}
    (h : env.targets.getD dest false = true) : Change env op f { f with pc := dest }

/-- Any number of changes, one after the other. -/
def Changes (env : Env) (op : Op) : Frame → Frame → Prop :=
  Relation.ReflTransGen (Change env op)

/-! ## The parts of an instruction

If what follows a part leaves behind a frame that is changes away, so does
the whole. -/

section Parts

variable {op : Op}

/-- The operand is taken, or it is missing. -/
theorem changes_pop {k : UInt256 → Frame → Effect}
    (hk : ∀ a g, Changes env op g (k a g).frame) (f : Frame) :
    Changes env op f (f.pop k).frame := by
  unfold pop
  split
  case h_1 a rest hstack =>
    exact .head (.take op f (hstack ▸ List.suffix_cons a rest)) (hk a _)
  case h_2 => exact .refl

theorem changes_pop2 {k : UInt256 → UInt256 → Frame → Effect}
    (hk : ∀ a b g, Changes env op g (k a b g).frame) (f : Frame) :
    Changes env op f (f.pop2 k).frame :=
  changes_pop (fun a => changes_pop (hk a)) f

theorem changes_pop3 {k : UInt256 → UInt256 → UInt256 → Frame → Effect}
    (hk : ∀ a b c g, Changes env op g (k a b c g).frame) (f : Frame) :
    Changes env op f (f.pop3 k).frame :=
  changes_pop2 (fun a b => changes_pop (hk a b)) f

theorem changes_popMany {n : Nat} {k : List UInt256 → Frame → Effect}
    (hk : ∀ xs g, Changes env op g (k xs g).frame) (f : Frame) :
    Changes env op f (f.popMany n k).frame := by
  unfold popMany
  split
  · exact .head (.take op f (List.drop_suffix n f.stack)) (hk _ _)
  · exact .single (.take op f (List.nil_suffix))

/-- The result is put on the stack if that has room. -/
theorem changes_push (f : Frame) (x : UInt256) : Changes env op f (f.push env x).frame := by
  unfold push
  split
  case isTrue hroom => exact .single (.put op f x hroom)
  case isFalse => exact .refl

/-- What follows a granted stretch may rely on it. -/
theorem changes_reserve {k : Frame → Effect}
    (hk : ∀ memory, Granted env f offset len memory →
      Changes env op { f with memory := memory } (k { f with memory := memory }).frame) :
    Changes env op f (f.reserve env offset len k).frame := by
  rcases reserve_cases env f offset len k with ⟨e, heq⟩ | ⟨memory, hgranted, heq⟩
  · rw [heq]
    exact .refl
  · rw [heq]
    exact .head (.grant op f hgranted) (hk memory hgranted)

theorem changes_fetch {k : Bytes → Frame → Effect}
    (hk : ∀ bs g, Changes env op g (k bs g).frame) (f : Frame) :
    Changes env op f (f.fetch env offset len k).frame :=
  changes_reserve fun _ _ => hk _ _

/-- The stretch that is written is the one that was granted. -/
theorem changes_put {bs : Unit → Bytes} (hop : op.writesMemory = true)
    (hlen : (bs ()).length = len.toNat) (f : Frame) :
    Changes env op f (f.put env offset len bs).frame :=
  changes_reserve fun _ hgranted => .single (.write hop _ (hlen ▸ hgranted.covers))

theorem changes_jumpTo (hop : op.jumps = true) (dest : UInt256) (f : Frame) :
    Changes env op f (f.jumpTo env dest).frame := by
  unfold jumpTo
  split
  case isTrue htarget => exact .single (.jump hop f htarget)
  case isFalse => exact .refl

end Parts

/-! ## Instructions -/

/-- **Whatever an instruction leads to, it leaves behind a frame that is
some changes away.** -/
theorem changes_perform (env : Env) (gas : Nat) (byte : UInt8) (op : Op) (f : Frame) :
    Changes env op f (f.perform env gas byte op).frame := by
  cases op with
  | stop | jumpDest | invalid | external => exact .refl
  | unary | record | callDataLoad => exact changes_pop (fun _ g => changes_push g _) f
  | storageLoad => exact changes_pop (fun key g => changes_push g (g.storage.getD key 0)) f
  | transientLoad => exact changes_pop (fun key g => changes_push g (g.transient.getD key 0)) f
  | binary => exact changes_pop2 (fun _ _ g => changes_push g _) f
  | ternary => exact changes_pop3 (fun _ _ _ g => changes_push g _) f
  | keccak256 =>
    exact changes_pop2 (fun _ _ => changes_fetch fun _ g => changes_push g _) f
  | context => exact changes_push f _
  | callDataCopy | codeCopy =>
    exact changes_pop3 (fun _ _ _ => changes_put rfl (length_zeroExtended _ _ _)) f
  | returnDataCopy =>
    refine changes_pop3 (fun _ _ _ g => ?_) f
    split <;> exact .refl
  | pop =>
    refine changes_pop (fun _ _ => ?_) f
    exact .refl
  | memoryLoad =>
    exact changes_pop (fun _ => changes_fetch fun _ g => changes_push g _) f
  | memoryStore =>
    exact changes_pop2 (fun _ x => changes_put rfl (Word.ofUInt256 x).length_bytes) f
  | memoryStore8 => exact changes_pop2 (fun _ _ => changes_put rfl rfl) f
  | memoryCopy =>
    refine changes_pop3 (fun dest source len g => ?_) f
    refine changes_reserve fun _ htarget => changes_reserve fun _ hsource => ?_
    -- the target is still covered when the source has been granted as well
    refine .single (.write rfl _ ?_)
    rw [Memory.length_read]
    exact htarget.covers.mono hsource.size_le
  | storageStore => exact changes_pop2 (fun key x g => .single (.store g key x)) f
  | transientStore => exact changes_pop2 (fun key x g => .single (.storeTransient g key x)) f
  | jump => exact changes_pop (fun dest => changes_jumpTo rfl dest) f
  | jumpIf =>
    refine changes_pop2 (fun dest condition g => ?_) f
    split
    · exact .refl
    · exact changes_jumpTo rfl dest g
  | push size => exact .head (.pass size f) (changes_push _ _)
  | dup n =>
    unfold perform
    dsimp only
    split
    · exact changes_push f _
    · exact .refl
  | swap n =>
    unfold perform
    dsimp only
    split
    case h_1 top rest x hstack _ =>
      exact .single (.exchange n f (by rw [hstack, List.length_cons, List.length_cons,
        List.length_set]))
    case h_2 => exact .refl
  | log n =>
    exact changes_pop2 (fun _ _ => changes_popMany fun _ => changes_fetch fun _ g =>
      .single (.log n g _)) f
  | return_ | revert =>
    refine changes_pop2 (fun _ _ => changes_fetch fun _ _ => ?_) f
    exact .refl

/-- What every change keeps, any number of changes keeps. -/
theorem invariant_changes {op : Op} {I : Frame → Prop}
    (hI : ∀ f g, Change env op f g → I f → I g) {f g : Frame} (h : Changes env op f g)
    (hf : I f) : I g := by
  induction h with
  | refl => exact hf
  | tail _ hchange ih => exact hI _ _ hchange ih

/-- **What every change of it keeps, an instruction keeps.** A byte that
is no instruction changes nothing. -/
theorem invariant_dispatch {byte : UInt8} {I : Frame → Prop}
    (hI : ∀ op, Op.ofByte? byte = some op → ∀ f g, Change env op f g → I f → I g)
    (gas : Nat) {f : Frame} (hf : I f) : I (f.dispatch env gas byte).frame := by
  unfold dispatch
  split
  case h_1 op hop => exact invariant_changes (hI op hop) (changes_perform env gas byte op f) hf
  case h_2 => exact hf

end Frame

end EthCall.Evm
