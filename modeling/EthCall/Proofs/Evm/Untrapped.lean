import EthCall.Proofs.Evm.Bounds
import EthCall.Proofs.Evm.InstructionStart
import EthCall.Proofs.Evm.Row
import EthCall.Proofs.Evm.Trapping

/-!
# Steps never trap

Each operation of `EthCall.Proofs.Evm.Trapping` that can trap stands
behind something that keeps it from doing so, and rarely right behind it.
What it is depends on the operation:

* Memory is read and written in a stretch that was reserved, so it is
  inside what is in use (`Located`). A stretch without bytes is at zero
  then, wherever it was asked to be; this goes unnoticed, as nothing is
  read there or written.
* Sums of places are checked as the stretch is reserved. The checks of the
  single sums are one of the last (`extent?_eq`), and whatever is computed
  from the stretch later is less.
* Code and calldata are as long as a byte string in memory can be, which
  leaves room for a word behind them (`Sized`). The position is in the
  code when an instruction begins, and behind its byte from then on.
* A byte of a family of instructions is as far behind the first of them as
  its instruction says, which is checked byte by byte (`stands`).
* The stack is compared with the depth before it is indexed. That it is
  indexed from its other end is seen to by reversing it.

So instructions do the same as the plain ones (`perform_eq`), and steps do
(`step_eq`), for any machine at all: what an execution has come to before
does not matter.
-/

namespace EthCall.Evm.Trapping

variable {env : Env} {f : Frame} {offset len : UInt256}

/-! ## Operands -/

section Operands

theorem pop_eq {k' : UInt256 → Frame → Except Trap Effect} {k : UInt256 → Frame → Effect}
    (hk : ∀ x g, k' x g = .ok (k x g)) (f : Frame) : pop f k' = .ok (f.pop k) := by
  unfold pop Frame.pop
  cases f.stack with
  | nil => rfl
  | cons x rest => exact hk x _

theorem pop2_eq {k' : UInt256 → UInt256 → Frame → Except Trap Effect}
    {k : UInt256 → UInt256 → Frame → Effect} (hk : ∀ x y g, k' x y g = .ok (k x y g))
    (f : Frame) : pop2 f k' = .ok (f.pop2 k) :=
  pop_eq (fun x => pop_eq (hk x)) f

theorem pop3_eq {k' : UInt256 → UInt256 → UInt256 → Frame → Except Trap Effect}
    {k : UInt256 → UInt256 → UInt256 → Frame → Effect}
    (hk : ∀ x y z g, k' x y z g = .ok (k x y z g)) (f : Frame) :
    pop3 f k' = .ok (f.pop3 k) :=
  pop2_eq (fun x y => pop_eq (hk x y)) f

/-- The first of several numbers is the top. -/
theorem popMany_succ {x : UInt256} {rest : List UInt256} (h : f.stack = x :: rest) (n : Nat)
    (k : List UInt256 → Frame → Effect) :
    f.popMany (n + 1) k = { f with stack := rest }.popMany n fun xs g => k (x :: xs) g := by
  unfold Frame.popMany
  rw [h]
  show (if n + 1 ≤ rest.length + 1 then _ else _) = if n ≤ rest.length then _ else _
  by_cases hn : n ≤ rest.length
  · rw [if_pos hn, if_pos (Nat.succ_le_succ hn)]
    rfl
  · rw [if_neg hn, if_neg (fun h => hn (Nat.le_of_succ_le_succ h))]

/-- Numbers taken one after the other are taken together. -/
theorem popMany_eq {n : Nat} {k' : List UInt256 → Frame → Except Trap Effect}
    {k : List UInt256 → Frame → Effect} (hk : ∀ xs g, k' xs g = .ok (k xs g)) (f : Frame) :
    popMany n f k' = .ok (f.popMany n k) := by
  induction n generalizing f k' k with
  | zero => exact hk [] f
  | succ n ih =>
    unfold popMany pop
    cases hstack : f.stack with
    | nil =>
      have hshort : f.popMany (n + 1) k = f.halt .stackUnderflow := by
        unfold Frame.popMany
        rw [if_neg (by simp [hstack]), ← hstack]
      exact congrArg Except.ok hshort.symm
    | cons x rest =>
      rw [popMany_succ hstack]
      exact ih (fun xs g => hk (x :: xs) g) _

end Operands

/-! ## Memory -/

/-- **A stretch that was reserved**, with its place as a size: it is in
memory, and it is where it was asked to be unless it has no bytes. -/
structure Located (m : Memory) (offset : UInt256) (start len : Nat) : Prop where
  inside : start + len ≤ m.size
  isSize : start + len ≤ maxSize
  start_eq : len ≠ 0 → start = offset.toNat

/-- The checks of the single sums are one check of the last. -/
theorem extent?_eq (offset len : UInt256) :
    extent? offset len = if offset.toNat + len.toNat + 31 ≤ maxSize then
        some (offset.toNat, len.toNat, offset.toNat + len.toNat + 31)
      else none := by
  unfold extent? toSize? Trap.checkedAdd?
  by_cases hstart : offset.toNat ≤ maxSize
  · by_cases hlen : len.toNat ≤ maxSize
    · by_cases hlast : offset.toNat + len.toNat ≤ maxSize
      · by_cases hpadded : offset.toNat + len.toNat + 31 ≤ maxSize
        · simp [hstart, hlen, hlast, hpadded]
        · simp [hstart, hlen, hlast, hpadded]
      · simp [hstart, hlen, hlast, show ¬ offset.toNat + len.toNat + 31 ≤ maxSize by omega]
    · simp [hstart, hlen, show ¬ offset.toNat + len.toNat + 31 ≤ maxSize by omega]
  · simp [hstart, show ¬ offset.toNat + len.toNat + 31 ≤ maxSize by omega]

theorem reserve_eq {k' : Nat → Nat → Frame → Except Trap Effect} {k : Frame → Effect}
    (hk : ∀ start memory, Frame.Granted env f offset len memory →
      Located memory offset start len.toNat →
      k' start len.toNat { f with memory := memory } = .ok (k { f with memory := memory })) :
    reserve env f offset len k' = .ok (f.reserve env offset len k) := by
  unfold reserve Frame.reserve
  by_cases hlen : len = 0
  · rw [if_pos hlen, if_pos hlen]
    have hzero : len.toNat = 0 := by rw [hlen]; rfl
    have := hk 0 f.memory (.empty hlen) ⟨by omega, by omega, by omega⟩
    rwa [hzero] at this
  · rw [if_neg hlen, if_neg hlen]
    rw [extent?_eq]
    dsimp only
    by_cases hmax : offset.toNat + len.toNat + 31 ≤ maxSize
    · rw [if_pos hmax, if_neg (Nat.not_lt.mpr hmax)]
      dsimp only
      rw [Trap.mul_of_le (by omega)]
      show (if env.settings.memoryLimit.toNat < Frame.wholeWords _ then _ else _) = _
      by_cases hlimit : env.settings.memoryLimit.toNat
          < Frame.wholeWords (offset.toNat + len.toNat)
      · rw [if_pos hlimit, if_pos hlimit]
        rfl
      · rw [if_neg hlimit, if_neg hlimit]
        have hgranted : Frame.Granted env f offset len _ := .grown (Nat.le_of_not_lt hlimit)
        refine hk _ _ hgranted ⟨?_, by omega, fun _ => rfl⟩
        exact Nat.le_trans (Frame.le_wholeWords _) (Nat.le_max_right _ _)
    · rw [if_neg hmax, if_pos (Nat.lt_of_not_le hmax)]
      rfl

namespace Located

variable {m : Memory} {start n : Nat} (h : Located m offset start n)
include h

theorem read_eq : read m start (start + n) = .ok (m.read offset.toNat n) := by
  unfold read
  rw [if_pos ⟨Nat.le_add_right _ _, h.inside⟩, Nat.add_sub_cancel_left]
  by_cases hn : n = 0
  · subst hn
    rfl
  · rw [h.start_eq hn]

theorem write_eq {bs : Bytes} (hbs : bs.length = n) :
    write m start (start + n) bs = .ok (m.write offset.toNat bs) := by
  unfold write
  rw [if_pos ⟨Nat.le_add_right _ _, h.inside⟩, Nat.add_sub_cancel_left, if_pos hbs]
  by_cases hn : n = 0
  · rw [List.eq_nil_of_length_eq_zero (hbs.trans hn)]
    rfl
  · rw [h.start_eq hn]

theorem setByte_eq (hn : n = 1) (b : UInt8) :
    setByte m start b = .ok (m.write offset.toNat [b]) := by
  have hinside := h.inside
  unfold setByte
  rw [if_pos (by omega), h.start_eq (by omega)]

/-- A copy within memory, for which both stretches were reserved. -/
theorem copyWithin_eq {source : UInt256} {start' : Nat} (hsource : Located m source start' n)
    (hn : n ≠ 0) :
    copyWithin m start' (start' + n) start
      = .ok (m.write offset.toNat (m.read source.toNat n)) := by
  have hinside := h.inside
  unfold copyWithin
  rw [Nat.add_sub_cancel_left, if_pos ⟨Nat.le_add_right _ _, hsource.inside, hinside⟩,
    h.start_eq hn, hsource.start_eq hn]

end Located

theorem fetch_eq {k' : Bytes → Frame → Except Trap Effect} {k : Bytes → Frame → Effect}
    (hk : ∀ bs g, k' bs g = .ok (k bs g)) (f : Frame) :
    fetch env f offset len k' = .ok (f.fetch env offset len k) :=
  reserve_eq fun _ _ _ h =>
    Trap.bind_eq (Trap.add_of_le h.isSize) (Trap.bind_eq h.read_eq (hk _ _))

/-- What there is of a stretch of bytes, and zeros for the rest. -/
theorem zeroExtended_eq_append (source : Array UInt8) (start n : Nat) :
    zeroExtended source start n
      = (source.toList.drop start).take n ++ Bytes.zeros (n - (source.size - start)) := by
  have hlen : ((source.toList.drop start).take n).length = min n (source.size - start) := by
    simp
  refine List.ext_getElem? fun i => ?_
  unfold zeroExtended Bytes.zeros
  rw [List.getElem?_append, hlen, List.getElem?_map]
  by_cases hi : i < n
  · rw [List.getElem?_range hi]
    by_cases hin : start + i < source.size
    · rw [if_pos (by omega), List.getElem?_take_of_lt hi, List.getElem?_drop]
      simp [hin]
    · rw [if_neg (by omega), List.getElem?_replicate_of_lt (by omega)]
      simp [hin]
  · rw [if_neg (by omega), List.getElem?_eq_none (by simp; omega),
      List.getElem?_eq_none (by simp; omega)]
    rfl

/-- Bytes that are copied into zeros. -/
theorem overwrite_zeros {width first last : Nat} {bs : Bytes} (hfirst : first ≤ last)
    (hlast : last ≤ width) (hlength : bs.length = last - first) :
    Trap.overwrite (Bytes.zeros width) first last bs
      = .ok (Bytes.zeros first ++ bs ++ Bytes.zeros (width - last)) := by
  rw [Trap.overwrite_of_le hfirst (by rwa [Bytes.length_zeros]) hlength]
  unfold Bytes.zeros
  rw [List.take_replicate, List.drop_replicate, Nat.min_eq_left (Nat.le_trans hfirst hlast)]

/-- As many bytes as there are in front of the end. -/
theorem take_available (source : Array UInt8) (start n : Nat) :
    (source.toList.drop start).take (min (source.size - start) n)
      = (source.toList.drop start).take n := by
  refine List.take_eq_take_iff.mpr ?_
  rw [List.length_drop, Array.length_toList]
  omega

theorem filled_eq {source : Array UInt8} (hsource : source.size ≤ maxSize) (offset : UInt256)
    (n : Nat) : filled source offset n = .ok (zeroExtended source offset.toNat n) := by
  have hbeyond (h : source.size ≤ offset.toNat) :
      zeroExtended source offset.toNat n = Bytes.zeros n := by
    rw [zeroExtended_eq_append, List.drop_eq_nil_of_le h, Nat.sub_eq_zero_of_le h,
      List.take_nil, List.nil_append, Nat.sub_zero]
  unfold filled
  by_cases hsize : offset.toNat ≤ maxSize
  · rw [toSize?_of_le hsize]
    dsimp only
    by_cases hstart : offset.toNat < source.size
    · rw [if_pos hstart]
      refine Trap.bind_eq (Trap.sub_of_le (Nat.le_of_lt hstart)) ?_
      refine Trap.bind_eq (Trap.add_of_le (by omega)) ?_
      have hlast : offset.toNat + min (source.size - offset.toNat) n ≤ source.toList.length := by
        rw [Array.length_toList]
        omega
      refine Trap.bind_eq (Trap.slice_of_le (Nat.le_add_right _ _) hlast) ?_
      have hlength : ((source.toList.drop offset.toNat).take n).length
          = min (source.size - offset.toNat) n := by
        rw [List.length_take, List.length_drop, Array.length_toList, Nat.min_comm]
      rw [Nat.add_sub_cancel_left, take_available, overwrite_zeros (Nat.zero_le _)
        (Nat.min_le_right _ _) hlength, zeroExtended_eq_append]
      refine congrArg Except.ok (congrArg _ (congrArg Bytes.zeros ?_))
      omega
    · rw [if_neg hstart, hbeyond (Nat.le_of_not_lt hstart)]
      rfl
  · rw [toSize?_of_lt (Nat.lt_of_not_le hsize), hbeyond (by omega)]
    rfl

theorem loadWord_eq {source : Array UInt8} (hsource : source.size ≤ maxSize) (offset : UInt256) :
    loadWord source offset = .ok (numberOfBytes (zeroExtended source offset.toNat 32)) :=
  Trap.bind_eq (filled_eq hsource offset 32)
    (ofBytes_of_le (Nat.le_of_eq (length_zeroExtended _ _ _)))

theorem copy_eq {source : Array UInt8} (hsource : source.size ≤ maxSize)
    (dest offset len : UInt256) (f : Frame) :
    copy env f source dest offset len
      = .ok (f.put env dest len fun _ => zeroExtended source offset.toNat len.toNat) :=
  reserve_eq fun _ _ _ h =>
    Trap.bind_eq (Trap.add_of_le h.isSize) (Trap.bind_eq (filled_eq hsource offset _)
      (Trap.bind_eq (h.write_eq (length_zeroExtended _ _ _)) rfl))

/-! ## Jumps and questions -/

theorem jumpTo_eq (htargets : env.targets.size = env.code.size)
    (hcode : env.code.size ≤ maxSize) (dest : UInt256) (f : Frame) :
    jumpTo env f dest = .ok (f.jumpTo env dest) := by
  have hbeyond (h : env.code.size ≤ dest.toNat) : env.targets.getD dest.toNat false = false := by
    rw [Array.getD_eq_getD_getElem?, Array.getElem?_eq_none (htargets ▸ h)]
    rfl
  unfold jumpTo Frame.jumpTo
  by_cases hsize : dest.toNat ≤ maxSize
  · rw [toSize?_of_le hsize, Nat.min_eq_left hsize]
    dsimp only
    by_cases hplace : dest.toNat < env.code.size
    · rw [if_pos hplace]
      have hlt : dest.toNat < env.targets.toList.length := by
        rwa [Array.length_toList, htargets]
      have hmark : env.targets.getD dest.toNat false = env.targets.toList[dest.toNat] := by
        rw [Array.getD_eq_getD_getElem?, ← Array.getElem?_toList, List.getElem?_eq_getElem hlt]
        rfl
      refine Trap.bind_eq (Trap.index_of_lt hlt) ?_
      rw [hmark]
      split <;> rfl
    · rw [if_neg hplace, hbeyond (Nat.le_of_not_lt hplace)]
      rfl
  · rw [toSize?_of_lt (Nat.lt_of_not_le hsize), hbeyond (by omega), Nat.min_eq_right (by omega)]
    rfl

theorem answer_eq {steps : Nat} (hsteps : steps ≤ env.settings.stepLimit.toNat)
    (hpc : 1 ≤ f.pc) (q : ContextOp) :
    answer env steps f q = .ok (f.answer env (env.settings.stepLimit.toNat - steps) q) := by
  cases q with
  | pc => exact Trap.bind_eq (Trap.sub_of_le hpc) rfl
  | gas => exact Trap.bind_eq (Trap.sub_of_le hsteps) rfl
  | _ => rfl

/-! ## Bytes that are several instructions -/

/-- Whether a byte stands as far behind the first of its kind as its
instruction says. -/
def stands (byte : UInt8) : Op → Bool
  | .dup n => byte.toNat + 1 == 0x80 + n && 0 < n
  | .swap n => byte.toNat + 1 == 0x90 + n && 0 < n
  | .log n => byte.toNat == 0xa0 + n
  | _ => true

theorem stands_of_ofByte? {byte : UInt8} {op : Op} (h : Op.ofByte? byte = some op) :
    stands byte op = true := by
  have hall : (Op.ofByte? byte).all (stands byte) = true :=
    forall_byte (P := fun byte => (Op.ofByte? byte).all (stands byte) = true)
      (by decide +kernel) byte
  rwa [h] at hall

theorem place_eq {byte first : UInt8} {n : Nat} (h : byte.toNat + 1 = first.toNat + n)
    (hn : 0 < n) (hfirst : 0 < first.toNat) : place byte first = .ok n := by
  have hbyte := byte.toNat_lt
  refine Trap.bind_eq (Trap.sub_of_le (by omega)) ?_
  rw [Trap.add_of_le (by omega)]
  exact congrArg Except.ok (by omega)

theorem pushed_eq (byte : UInt8) : pushed byte = .ok (pushSize byte) := by
  unfold pushed pushSize
  split
  case isTrue h => exact place_eq (by show _ + 1 = 0x60 + _; omega) (by omega) (by decide)
  case isFalse => rfl

theorem push_eq {byte : UInt8} {size : Nat} (hbyte : Op.ofByte? byte = some (.push (size + 1)))
    (hpc : f.pc ≤ env.code.size) (hcode : env.code.size + 32 ≤ maxSize) :
    push env byte f = .ok ({ f with pc := f.pc + (size + 1) }.push env
      (numberOfBytes (zeroExtended env.code f.pc (size + 1)))) := by
  have hpushes : pushSize byte = size + 1 := by
    rw [pushSize_eq, hbyte]
    rfl
  have hsize : size + 1 ≤ 32 := hpushes ▸ pushSize_le byte
  have hmax : 32 ≤ maxSize := by decide
  have hlast : f.pc + min (env.code.size - f.pc) (size + 1) ≤ env.code.toList.length := by
    rw [Array.length_toList]
    omega
  have hlength : ((env.code.toList.drop f.pc).take (size + 1)).length
      = min (env.code.size - f.pc) (size + 1) := by
    rw [List.length_take, List.length_drop, Array.length_toList, Nat.min_comm]
  -- the word is the zeros in front of the bytes, and those behind them are among them
  have hword : numberOfBytes (Bytes.zeros (32 - (size + 1))
        ++ (env.code.toList.drop f.pc).take (size + 1)
        ++ Bytes.zeros (32 - (32 - (size + 1) + min (env.code.size - f.pc) (size + 1))))
      = numberOfBytes (zeroExtended env.code f.pc (size + 1)) := by
    have hrest : 32 - (32 - (size + 1) + min (env.code.size - f.pc) (size + 1))
        = size + 1 - (env.code.size - f.pc) := by omega
    unfold numberOfBytes
    rw [hrest, List.append_assoc, ← zeroExtended_eq_append, Bytes.toNat_append, Bytes.toNat_zeros,
      Nat.zero_mul, Nat.zero_add]
  refine Trap.bind_eq ((pushed_eq byte).trans (congrArg Except.ok hpushes)) ?_
  refine Trap.bind_eq (Trap.sub_of_le (by omega)) ?_
  refine Trap.bind_eq (Trap.add_of_le (by omega)) ?_
  refine Trap.bind_eq (Trap.add_of_le (by omega)) ?_
  refine Trap.bind_eq (Trap.slice_of_le (Nat.le_add_right _ _) hlast) ?_
  rw [Nat.add_sub_cancel_left, take_available]
  refine Trap.bind_eq (overwrite_zeros (Nat.le_add_right _ _) (by omega)
    (by rw [hlength, Nat.add_sub_cancel_left])) ?_
  refine Trap.bind_eq (Trap.add_of_le (by omega)) ?_
  refine Trap.bind_eq (ofBytes_of_le ?_) ?_
  · rw [List.length_append, List.length_append, Bytes.length_zeros, Bytes.length_zeros, hlength]
    omega
  · rw [hword]
    rfl

theorem dup_eq {byte : UInt8} {n : Nat} (hbyte : Op.ofByte? byte = some (.dup n)) (gas : Nat)
    (f : Frame) : dup env byte f = .ok (f.perform env gas byte (.dup n)) := by
  have hstands := stands_of_ofByte? hbyte
  simp only [stands, Bool.and_eq_true, beq_iff_eq, decide_eq_true_eq] at hstands
  obtain ⟨hplace, hn⟩ := hstands
  refine Trap.bind_eq (place_eq hplace hn (by decide)) ?_
  dsimp only [Frame.perform]
  by_cases hshort : f.stack.length < n
  · rw [if_pos hshort, List.getElem?_eq_none (by omega)]
    rfl
  · have hindex : f.stack.length - n < f.stack.reverse.length := by
      rw [List.length_reverse]
      omega
    have hitem : f.stack.reverse[f.stack.length - n] = f.stack[n - 1] := by
      rw [List.getElem_reverse]
      congr 1
      omega
    rw [if_neg hshort, List.getElem?_eq_getElem (by omega)]
    refine Trap.bind_eq (Trap.sub_of_le (Nat.le_of_not_lt hshort)) ?_
    refine Trap.bind_eq (Trap.index_of_lt hindex) ?_
    rw [hitem]
    rfl

/-- A place of a list, counted from its other end. -/
theorem reverse_set {α : Type} (xs : List α) (x : α) {i : Nat} (h : i < xs.length) :
    xs.reverse.set (xs.length - 1 - i) x = (xs.set i x).reverse := by
  refine List.ext_getElem (by simp) fun j hj hj' => ?_
  rw [List.getElem_set, List.getElem_reverse, List.getElem_reverse, List.getElem_set]
  rw [List.length_set, List.length_reverse] at hj
  simp only [List.length_set]
  by_cases hij : i = xs.length - 1 - j
  · rw [if_pos (by omega), if_pos hij]
  · rw [if_neg (by omega), if_neg hij]

/-- The top is the last item of the stack, and exchanged as such. -/
theorem swap_reverse (top : UInt256) (rest : List UInt256) {n : Nat} (hn : 0 < n)
    (h : n < (top :: rest).length) :
    Trap.swap (top :: rest).reverse ((top :: rest).length - 1) ((top :: rest).length - 1 - n)
      = .ok ((top :: rest)[n] :: rest.set (n - 1) top).reverse := by
  have htop : (top :: rest).length - 1 < (top :: rest).reverse.length := by
    rw [List.length_reverse]
    omega
  have hitem : (top :: rest).length - 1 - n < (top :: rest).reverse.length := by
    rw [List.length_reverse]
    omega
  have hset : (top :: rest).reverse.set ((top :: rest).length - 1) (top :: rest)[n]
      = ((top :: rest)[n] :: rest).reverse :=
    reverse_set (top :: rest) (top :: rest)[n] (Nat.succ_pos _)
  have hset' : ((top :: rest)[n] :: rest).reverse.set ((top :: rest).length - 1 - n) top
      = (((top :: rest)[n] :: rest).set n top).reverse :=
    reverse_set ((top :: rest)[n] :: rest) top h
  have hreadTop : (top :: rest).reverse[(top :: rest).length - 1] = top := by
    rw [List.getElem_reverse]
    simp
  have hreadItem : (top :: rest).reverse[(top :: rest).length - 1 - n] = (top :: rest)[n] := by
    rw [List.getElem_reverse]
    congr 1
    omega
  obtain ⟨k, rfl⟩ := Nat.exists_eq_succ_of_ne_zero (Nat.ne_of_gt hn)
  rw [Trap.swap_of_lt htop hitem, hreadTop, hreadItem, hset, hset']
  rfl

theorem swap_eq {byte : UInt8} {n : Nat} (hbyte : Op.ofByte? byte = some (.swap n)) (gas : Nat)
    (f : Frame) : swap byte f = .ok (f.perform env gas byte (.swap n)) := by
  have hstands := stands_of_ofByte? hbyte
  simp only [stands, Bool.and_eq_true, beq_iff_eq, decide_eq_true_eq] at hstands
  obtain ⟨hplace, hn⟩ := hstands
  refine Trap.bind_eq (place_eq hplace hn (by decide)) ?_
  dsimp only [Frame.perform]
  cases f.stack with
  | nil => rfl
  | cons top rest =>
    by_cases hshort : (top :: rest).length ≤ n
    · rw [if_pos hshort, List.getElem?_eq_none hshort]
      rfl
    · rw [if_neg hshort, List.getElem?_eq_getElem (Nat.lt_of_not_le hshort)]
      refine Trap.bind_eq (Trap.sub_of_le (Nat.succ_pos _)) ?_
      refine Trap.bind_eq (Trap.sub_of_le ?_) ?_
      · omega
      refine Trap.bind_eq (swap_reverse top rest hn (Nat.lt_of_not_le hshort)) ?_
      rw [List.reverse_reverse]
      rfl

theorem log_eq {byte : UInt8} {n : Nat} (hbyte : Op.ofByte? byte = some (.log n)) (gas : Nat)
    (f : Frame) : log env byte f = .ok (f.perform env gas byte (.log n)) := by
  have hstands := stands_of_ofByte? hbyte
  simp only [stands, beq_iff_eq] at hstands
  have hdistance : distance byte 0xa0 = .ok n := by
    refine (Trap.sub_of_le ?_).trans (congrArg Except.ok ?_)
    · rw [hstands]
      exact Nat.le_add_right _ _
    · rw [hstands]
      exact Nat.add_sub_cancel_left 160 n
  refine Trap.bind_eq hdistance ?_
  exact pop2_eq (fun _ _ => popMany_eq fun _ => fetch_eq fun _ _ => rfl) f

/-! ## Instructions -/

/-- **The surroundings of a step** that the operations rely on: code and
calldata whose lengths are sizes with room for a word behind them, and a
mark for every byte of the code. -/
structure Sized (env : Env) : Prop where
  code_le : env.code.size + 33 ≤ maxSize
  calldata_le : env.calldata.size ≤ maxSize
  targets_eq : env.targets.size = env.code.size

/-- **An instruction does not trap**, whatever is on the stack. -/
theorem perform_eq (henv : Sized env) {steps : Nat} {byte : UInt8} {op : Op}
    (hbyte : Op.ofByte? byte = some op) (hsteps : steps ≤ env.settings.stepLimit.toNat)
    (hpc : 1 ≤ f.pc) (hcode : f.pc ≤ env.code.size) :
    perform env steps byte f op
      = .ok (f.perform env (env.settings.stepLimit.toNat - steps) byte op) := by
  have hsize := henv.code_le
  cases op with
  | stop | jumpDest | invalid | external => rfl
  | unary op => exact pop_eq (k := fun x g => g.push env (op.apply x)) (fun _ _ => rfl) f
  | record => exact pop_eq (k := fun _ g => g.push env 0) (fun _ _ => rfl) f
  | pop => exact pop_eq (fun _ _ => rfl) f
  | storageLoad =>
    exact pop_eq (k := fun key g => g.push env (g.storage.getD key 0)) (fun _ _ => rfl) f
  | transientLoad =>
    exact pop_eq (k := fun key g => g.push env (g.transient.getD key 0)) (fun _ _ => rfl) f
  | storageStore | transientStore => exact pop2_eq (fun _ _ _ => rfl) f
  | binary op => exact pop2_eq (fun x y _ => Trap.bind_eq (binary_eq op x y) rfl) f
  | ternary op => exact pop3_eq (fun x y n _ => Trap.bind_eq (ternary_eq op x y n) rfl) f
  | keccak256 | return_ | revert =>
    exact pop2_eq (fun _ _ => fetch_eq fun _ _ => rfl) f
  | context q => exact Trap.bind_eq (answer_eq hsteps hpc q) rfl
  | callDataLoad =>
    have hload (offset : UInt256) (g : Frame) :
        (do return g.push env (← loadWord env.calldata offset))
          = Except.ok (g.push env (numberOfBytes (zeroExtended env.calldata offset.toNat 32))) :=
      Trap.bind_eq (loadWord_eq henv.calldata_le offset) rfl
    exact pop_eq hload f
  | callDataCopy =>
    exact pop3_eq (fun dest offset len => copy_eq henv.calldata_le dest offset len) f
  | codeCopy =>
    exact pop3_eq (fun dest offset len => copy_eq (by omega) dest offset len) f
  | returnDataCopy =>
    refine pop3_eq (fun dest offset len g => ?_) f
    by_cases h : offset = 0 ∧ len = 0
    · rw [if_pos h, if_pos h, h.2]
      rfl
    · rw [if_neg h, if_neg h]
      rfl
  | memoryLoad =>
    refine pop_eq (k := fun offset g => g.fetch env offset 32 fun bs g =>
      g.push env (numberOfBytes bs)) (fun offset _ => reserve_eq fun _ _ _ h => ?_) f
    refine Trap.bind_eq (Trap.add_of_le h.isSize) (Trap.bind_eq h.read_eq ?_)
    exact Trap.bind_eq (ofBytes_of_le (Nat.le_of_eq (Memory.length_read _ _ _))) rfl
  | memoryStore =>
    refine pop2_eq (fun offset x _ => reserve_eq fun _ _ _ h => ?_) f
    refine Trap.bind_eq (Trap.add_of_le h.isSize) ?_
    exact Trap.bind_eq (h.write_eq (Word.ofUInt256 x).length_bytes) rfl
  | memoryStore8 =>
    refine pop2_eq (fun offset x _ => reserve_eq fun _ _ _ h => ?_) f
    have hbyte : Trapping.byte x 0 = .ok (UInt8.ofNat x.toNat) :=
      congrArg (fun n => Except.ok (UInt8.ofNat n)) (Nat.div_one x.toNat)
    exact Trap.bind_eq hbyte (Trap.bind_eq (h.setByte_eq rfl _) rfl)
  | memoryCopy =>
    refine pop3_eq (fun dest offset len g => ?_) f
    by_cases h : len = 0
    · rw [if_pos h, h]
      rfl
    · rw [if_neg h]
      refine reserve_eq fun start memory _ hdest => ?_
      rw [BitVec.ofNat_toNat, BitVec.setWidth_eq]
      refine reserve_eq fun start' memory' hgranted hsource => ?_
      have hdest' : Located memory' dest start len.toNat :=
        ⟨Nat.le_trans hdest.inside hgranted.size_le, hdest.isSize, hdest.start_eq⟩
      refine Trap.bind_eq (Trap.add_of_le hsource.isSize) ?_
      refine Trap.bind_eq (hdest'.copyWithin_eq hsource fun hzero => ?_) rfl
      exact h (BitVec.eq_of_toNat_eq hzero)
  | jump =>
    exact pop_eq (fun dest => jumpTo_eq henv.targets_eq (by omega) dest) f
  | jumpIf =>
    refine pop2_eq (fun dest condition g => ?_) f
    split
    · rfl
    · exact jumpTo_eq henv.targets_eq (by omega) dest g
  | push size =>
    cases size with
    | zero =>
      rfl
    | succ size => exact push_eq hbyte hcode (by omega)
  | dup => exact dup_eq hbyte _ f
  | swap => exact swap_eq hbyte _ f
  | log => exact log_eq hbyte _ f

/-- Neither does the instruction of a byte, or a byte that is none. -/
theorem dispatch_eq (henv : Sized env) {steps : Nat} (byte : UInt8)
    (hsteps : steps ≤ env.settings.stepLimit.toNat) (hpc : 1 ≤ f.pc)
    (hcode : f.pc ≤ env.code.size) :
    dispatch env steps byte f
      = .ok (f.dispatch env (env.settings.stepLimit.toNat - steps) byte) := by
  unfold dispatch Frame.dispatch
  cases hop : Op.ofByte? byte with
  | some op => exact perform_eq henv hop hsteps hpc hcode
  | none => rfl

/-- **A step does not trap**, whatever the frame is that it is made
from. -/
theorem step_eq (henv : Sized env) (m : Machine) : step env m = .ok (m.step env) := by
  unfold step Machine.step
  cases hbyte : env.code[m.frame.pc]? with
  | none => rfl
  | some byte =>
    dsimp only
    cases hsteps : m.charge? env with
    | none => rfl
    | some steps =>
      have hsize := henv.code_le
      have hlt : m.frame.pc < env.code.size := (Array.getElem?_eq_some_iff.mp hbyte).1
      refine Trap.bind_eq (Trap.add_of_le (by omega)) ?_
      exact Trap.bind_eq (dispatch_eq henv byte (Machine.le_of_charge? hsteps)
        (Nat.succ_pos _) hlt) rfl

/-! ## Executions -/

/-- What the scan has marked when it is at a place. -/
def marked (code : Bytes) (pc : Nat) : List Bool :=
  (List.range code.length).map fun i => decide (i < pc) && (jumpTargets code).getD i false

@[simp] theorem length_marked (code : Bytes) (pc : Nat) :
    (marked code pc).length = code.length := by
  simp [marked]

theorem getElem_marked {code : Bytes} {pc i : Nat} (h : i < (marked code pc).length) :
    (marked code pc)[i] = (decide (i < pc) && (jumpTargets code).getD i false) := by
  simp [marked]

theorem size_jumpTargets (code : Bytes) : (jumpTargets code).size = code.length := by
  rw [jumpTargets_eq]
  exact size_marks_scanned (Nat.le_refl _)

theorem marked_zero (code : Bytes) : marked code 0 = List.replicate code.length false := by
  unfold marked
  simp

theorem marked_of_le {code : Bytes} {pc : Nat} (h : code.length ≤ pc) :
    marked code pc = (jumpTargets code).toList := by
  refine List.ext_getElem (by simp [size_jumpTargets]) fun i hi hi' => ?_
  rw [getElem_marked]
  rw [length_marked] at hi
  simp [size_jumpTargets, Nat.lt_of_lt_of_le hi h, hi]

/-- What passing an instruction settles: whether it is marked. The bytes it
pushes are not. -/
theorem marked_at {code : Bytes} {pc i : Nat} {byte : UInt8} (hpc : InstructionStart code pc)
    (hbyte : code[pc]? = some byte) (hi : i < code.length) :
    (decide (i < pc + (1 + pushSize byte)) && (jumpTargets code).getD i false)
      = if i = pc then decide (byte = jumpDestByte)
        else decide (i < pc) && (jumpTargets code).getD i false := by
  rw [Bool.eq_iff_iff, Bool.and_eq_true, decide_eq_true_iff, getD_jumpTargets]
  rcases Nat.lt_trichotomy i pc with hlt | rfl | hgt
  · rw [if_neg (Nat.ne_of_lt hlt), Bool.and_eq_true, decide_eq_true_iff, getD_jumpTargets]
    exact and_congr_left fun _ => iff_of_true (by omega) hlt
  · rw [if_pos rfl, decide_eq_true_iff]
    unfold IsJumpTarget
    rw [hbyte, Option.some.injEq]
    exact ⟨fun h => h.2.2.2, fun h => ⟨by omega, hi, hpc, h⟩⟩
  · rw [if_neg (Nat.ne_of_gt hgt), decide_eq_false (Nat.not_lt_of_gt hgt), Bool.false_and]
    refine iff_of_false (fun h => ?_) Bool.false_ne_true
    obtain ⟨hnext, -, hstart, -⟩ := h
    obtain ⟨j, rfl⟩ := Nat.exists_eq_add_of_le (Nat.succ_le_of_lt hgt)
    exact hpc.not_pushed hbyte (by omega) (Nat.le_of_lt hi) hstart

theorem mark_eq {code : Bytes} {pc : Nat} {byte : UInt8} (hpc : InstructionStart code pc)
    (hbyte : code[pc]? = some byte) :
    mark byte pc (marked code pc) = .ok (marked code (pc + (1 + pushSize byte))) := by
  have hlt : pc < code.length := (List.getElem?_eq_some_iff.mp hbyte).1
  unfold mark
  by_cases hmark : byte = jumpDestByte
  · rw [if_pos hmark, Trap.set_of_lt (by rwa [length_marked])]
    refine congrArg Except.ok (List.ext_getElem (by simp) fun i _ hi => ?_)
    rw [getElem_marked, marked_at hpc hbyte (length_marked code _ ▸ hi)]
    simp only [List.getElem_set, getElem_marked, decide_eq_true hmark, eq_comm]
  · rw [if_neg hmark]
    refine congrArg Except.ok (List.ext_getElem (by simp) fun i _ hi => ?_)
    rw [getElem_marked, getElem_marked, marked_at hpc hbyte (length_marked code _ ▸ hi)]
    split
    case isTrue h =>
      rw [h, decide_eq_false (Nat.lt_irrefl pc), Bool.false_and, decide_eq_false hmark]
    case isFalse => rfl

/-- **The scan does not trap**, and it marks what is passed. -/
theorem scan_eq {code : Bytes} (hcode : code.length + 33 ≤ maxSize) {pc : Nat}
    (hpc : InstructionStart code pc) :
    scan code pc (marked code pc) = .ok (jumpTargets code).toList := by
  induction hrest : code.length - pc using Nat.strongRecOn generalizing pc with
  | ind rest ih =>
    rw [scan]
    by_cases hlt : pc < code.length
    · rw [if_pos hlt]
      have hbyte := List.getElem?_eq_getElem hlt
      have hsize := pushSize_le code[pc]
      refine Trap.bind_eq (Trap.index_of_lt hlt) ?_
      refine Trap.bind_eq (mark_eq hpc hbyte) ?_
      refine Trap.bind_eq (pushed_eq _) ?_
      refine Trap.bind_eq (Trap.add_of_le (by omega)) ?_
      refine Trap.bind_eq (Trap.add_of_le (by omega)) ?_
      refine ih _ ?_ ?_ rfl
      · omega
      · rw [← Nat.add_assoc]
        exact .next hpc hbyte
    · rw [if_neg hlt, marked_of_le (Nat.le_of_not_lt hlt)]
      rfl

theorem prepare_eq (settings : Settings) {code : Bytes} (hcode : code.length + 33 ≤ maxSize)
    (calldata : Bytes) :
    prepare settings code calldata = .ok (Env.new settings code calldata) := by
  have hscan : scan code 0 (List.replicate code.length false) = .ok (jumpTargets code).toList := by
    rw [← marked_zero]
    exact scan_eq hcode .first
  exact Trap.bind_eq hscan rfl

theorem sized_new (settings : Settings) {code calldata : Bytes}
    (hcode : code.length + 33 ≤ maxSize) (hcalldata : calldata.length ≤ maxSize) :
    Sized (Env.new settings code calldata) where
  code_le := hcode
  calldata_le := hcalldata
  targets_eq := size_jumpTargets code

theorem after_eq (henv : Sized env) (n : Nat) : after env n = .ok (Machine.after env n) := by
  induction n with
  | zero => rfl
  | succ n ih => exact Trap.bind_eq ih (Trap.bind_eq (step_eq henv _) rfl)

/-- **What a step may lead to**: the execution goes on, it ends with what
the contract gives, it ends as a mistake of the contract, or it is
stopped. -/
def Settled (p : Progress) : Prop :=
  (∃ m, p = .running m)
    ∨ (∃ bs m, p = .ended (.returned bs) m ∨ p = .ended (.reverted bs) m)
    ∨ (∃ reason m, p = .ended (.halted reason) m)
    ∨ ∃ e m, p = .stopped e m

theorem settled (p : Progress) : Settled p := by
  cases p with
  | running m => exact .inl ⟨m, rfl⟩
  | ended o m =>
    cases o with
    | returned bs => exact .inr (.inl ⟨bs, m, .inl rfl⟩)
    | reverted bs => exact .inr (.inl ⟨bs, m, .inr rfl⟩)
    | halted reason => exact .inr (.inr (.inl ⟨reason, m, rfl⟩))
  | stopped e m => exact .inr (.inr (.inr ⟨e, m, rfl⟩))

/-- **An execution does not trap.** The code is scanned, any number of
steps are made, and one more step is made from any machine – those that
are left behind, with any numbers on their stacks, are some of them. Each
leads to what a step may lead to. The code and the calldata are byte
strings in memory, and there are none of `2 ^ 63` bytes. -/
theorem execution_never_traps (settings : Settings) {code calldata : Bytes}
    (hcode : code.length < 2 ^ 63) (hcalldata : calldata.length < 2 ^ 63) :
    prepare settings code calldata = .ok (Env.new settings code calldata)
      ∧ (∀ n, after (Env.new settings code calldata) n
        = .ok (Machine.after (Env.new settings code calldata) n))
      ∧ ∀ m : Machine, step (Env.new settings code calldata) m
          = .ok (m.step (Env.new settings code calldata))
        ∧ Settled (m.step (Env.new settings code calldata)) := by
  have hmax : 2 ^ 63 + 33 ≤ maxSize := by decide
  have henv : Sized (Env.new settings code calldata) := sized_new settings (by omega) (by omega)
  exact ⟨prepare_eq settings (by omega) calldata, after_eq henv,
    fun m => ⟨step_eq henv m, settled _⟩⟩

/-- The least number divided by minus one, which has no quotient among the
signed numbers. -/
theorem execution_never_traps_leastQuotient :
    (step (Env.new .standard [0x05] [])
        ⟨{ Frame.initial with stack := [.twoPow 256 255, BitVec.allOnes 256] }, 0⟩).map
          (fun p => (p.machine.frame.pc, p.machine.frame.stack, p.machine.steps))
      = .ok (1, [.twoPow 256 255], 1) := by
  rw [((execution_never_traps .standard (by decide) (by decide)).2.2 _).1]
  exact congrArg Except.ok (by decide +kernel)

/-- A push on its own does trap, where no step makes one: the position is
not behind a byte of the code. -/
example : (match push (Env.new .standard [0x60] []) 0x60 { Frame.initial with pc := 2 } with
    | .error t => some t
    | .ok _ => none) = some .outOfRange := rfl

end EthCall.Evm.Trapping
