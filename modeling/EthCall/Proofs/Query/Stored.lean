import EthCall.Proofs.Abi.Event
import EthCall.Proofs.Evm.Assembled
import EthCall.Proofs.Evm.Pushing

/-!
# A contract that logs an event

The contract stores a value in its memory and logs it as an event, with a
key among the topics. Both are pushed in as few bytes as hold them, and so
is the topic of the event: where an instruction stands depends on the three
words. That does not matter to what the instructions do, as each of them is
found behind the bytes of those in front of it (`Env.StandsAt.split`).

The log has the topic of the event, the key and the value (`ends_code`), and
so it is decoded to the two, whatever they are (`decodes_stored`). Nothing is
used of the topic but that it is the one that the decoder asks for.
-/

namespace EthCall

open Abi Evm Frame

namespace Stored

/-! ## The contract -/

/-- The event that a value was stored under a key. -/
def event : Event :=
  ⟨"Stored", [⟨⟨"key", .uint 256⟩, true⟩, ⟨⟨"value", .uint 256⟩, false⟩], false⟩

/-- **The contract.** The value is the data of the log. -/
def directives (key value : Word) : List Directive :=
  [.pushWord value, .op 0x5f, .op 0x52, .pushWord key, .pushWord event.topic, .pushNumber 32,
    .op 0x5f, .op 0xa2, .op 0x00]

/-- A push of a word in as few bytes as hold it. -/
def push (w : Word) : Bytes := pushOf (Bytes.dropLeadingZeros w.bytes)

/-- Its code, with any topic. -/
def code (topic key value : Word) : Bytes :=
  push value ++ (pushOf [] ++ ([0x52] ++ (push key ++ (push topic ++ (pushOf [32] ++ (pushOf []
    ++ ([0xa2] ++ [0x00])))))))

theorem assemble_directives (key value : Word) :
    assemble (directives key value) = .ok (code event.topic key value) := by
  have hsize : pushOf (Bytes.dropLeadingZeros (Word.ofNat (32 : UInt64).toNat).bytes)
      = pushOf [32] := by decide +kernel
  have hspelled : (directives key value).flatMap (Directive.spelled fun _ => 0)
      = code event.topic key value := by
    unfold code
    rw [← hsize]
    rfl
  rw [← hspelled]
  refine assemble_of_no_references (fun bs hbs => ?_) List.nodup_nil rfl
  simp [directives, Directive.pushNumber] at hbs

/-! ## Its execution -/

section Execution

variable (topic key value : Word) (calldata : Bytes)

/-- The surroundings of the code on some calldata. -/
def env : Env := .new .standard (code topic key value) calldata

/-- What it logs. -/
def log : Log := ⟨Settings.standard.block.address, [topic, key], value.bytes⟩

/-- What is in the memory is logged, and the execution ends. -/
theorem ends_logging {pc : Nat} {memory : Memory} (hread : memory.read 0 32 = value.bytes)
    (hcode : (env topic key value calldata).StandsAt pc ([0xa2] ++ [0x00])) :
    (Frame.initial.placed pc [0, 32, topic.toUInt256, key.toUInt256] memory).Ends
      (env topic key value calldata) 2 (.returned []) [log topic key value] := by
  obtain ⟨hlog, hstop⟩ := hcode.split
  have hop : Op.ofByte? 0xa2 = some (.log 2) := by decide +kernel
  have hentry : log topic key value = ⟨Settings.standard.block.address,
      ([topic.toUInt256, key.toUInt256].take 2).map Word.ofUInt256, memory.read 0 32⟩ := by
    rw [List.take_of_length_le (by rfl), List.map_cons, List.map_singleton,
      ofUInt256_toUInt256, ofUInt256_toUInt256, hread]
    rfl
  obtain ⟨memory', hlogged⟩ : ∃ memory',
      (Frame.initial.placed pc [0, 32, topic.toUInt256, key.toUInt256] memory).Passes
        (env topic key value calldata) 1
        ({ Frame.initial with logs := #[log topic key value] }.placed (pc + 1) [] memory') := by
    rw [hentry]
    exact passes_log (of_decide_eq_true rfl) (Nat.le_refl 2) (hlog.opAt?.trans hop)
  exact hlogged.ends (ends_stop hstop.opAt?)

/-- **The contract logs the value** with the key behind the topic, and
returns nothing. -/
theorem ends_code : Frame.initial.Ends (env topic key value calldata) 9 (.returned [])
    [log topic key value] := by
  have hcode : (env topic key value calldata).StandsAt 0 (code topic key value) :=
    ⟨[], List.append_nil _⟩
  obtain ⟨hvalue, hcode⟩ := hcode.split
  obtain ⟨hoffset, hcode⟩ := hcode.split
  obtain ⟨hstore, hcode⟩ := hcode.split
  obtain ⟨hkey, hcode⟩ := hcode.split
  obtain ⟨htopic, hcode⟩ := hcode.split
  obtain ⟨hsize, hcode⟩ := hcode.split
  obtain ⟨hstart, hcode⟩ := hcode.split
  have hread := Memory.empty.read_stored 0 value.toUInt256
  rw [ofUInt256_toUInt256] at hread
  have hpushed : Frame.initial.Passes (env topic key value calldata) 7
      (Frame.initial.placed _ [0, 32, topic.toUInt256, key.toUInt256]
        (Memory.empty.stored 0 value.toUInt256)) := calc
    Frame.initial.Passes (env topic key value calldata) 1
        (Frame.initial.placed _ [value.toUInt256] .empty) :=
      (pushes_word value).passes (f := .initial) hvalue (of_decide_eq_true rfl)
    Passes (env topic key value calldata) 1 _
        (Frame.initial.placed _ [0, value.toUInt256] .empty) :=
      (pushes_pushOf (by decide)).passes hoffset (of_decide_eq_true rfl)
    Passes (env topic key value calldata) 1 _
        (Frame.initial.placed _ [] (Memory.empty.stored 0 value.toUInt256)) :=
      passes_memoryStore hstore.opAt? (of_decide_eq_true rfl)
    Passes (env topic key value calldata) 1 _
        (Frame.initial.placed _ [key.toUInt256] (Memory.empty.stored 0 value.toUInt256)) :=
      (pushes_word key).passes hkey (of_decide_eq_true rfl)
    Passes (env topic key value calldata) 1 _
        (Frame.initial.placed _ [topic.toUInt256, key.toUInt256]
          (Memory.empty.stored 0 value.toUInt256)) :=
      (pushes_word topic).passes htopic (of_decide_eq_true rfl)
    Passes (env topic key value calldata) 1 _
        (Frame.initial.placed _ [32, topic.toUInt256, key.toUInt256]
          (Memory.empty.stored 0 value.toUInt256)) :=
      (pushes_pushOf (by decide)).passes hsize (of_decide_eq_true rfl)
    Passes (env topic key value calldata) 1 _
        (Frame.initial.placed _ [0, 32, topic.toUInt256, key.toUInt256]
          (Memory.empty.stored 0 value.toUInt256)) :=
      (pushes_pushOf (by decide)).passes hstart (of_decide_eq_true rfl)
  exact hpushed.ends (ends_logging topic key value calldata hread hcode)

/-- The same for an execution. -/
theorem execute_code : execute .standard (code topic key value) calldata
    = .ok ⟨.returned [], 9, [log topic key value]⟩ := by
  have hpush (w : Word) : (push w).length ≤ 33 := Nat.succ_le_succ (length_dropLeadingZeros_le w)
  have hlength : (code topic key value).length ≤ Settings.standard.maxCodeSize.toNat := by
    have hmax : Settings.standard.maxCodeSize.toNat = 24576 := rfl
    have hvalue := hpush value
    have hkey := hpush key
    have htopic := hpush topic
    simp only [code, List.length_append, length_pushOf, List.length_cons, List.length_nil]
    omega
  exact execute_of_ends hlength (by decide) (ends_code topic key value calldata)

end Execution

/-! ## Its log -/

/-- A word is the encoding of its number. -/
theorem encode_word (w : Word) : encode [.uint 256 w.toUnsigned] [.uint 256] = .ok w.bytes := by
  have h := encode_words (List.forall_mem_singleton.mpr w.toUnsigned_lt)
  rwa [words_singleton, Word.ofNat_toUnsigned] at h

/-- **The log is decoded to the key and the value.** -/
theorem decode_log (key value : Word) :
    event.decode [event.topic, key] value.bytes
      = .ok [("key", .uint 256 key.toUnsigned), ("value", .uint 256 value.toUnsigned)] := by
  have hdata : Abi.decode value.bytes event.dataSchemas = .ok [.uint 256 value.toUnsigned] :=
    decode_of_encode (encode_word value) List.prefix_rfl fun h => by cases h
  have hassign : Event.assign event.inputs [key] [.uint 256 value.toUnsigned]
      = .ok [("key", .uint 256 key.toUnsigned), ("value", .uint 256 value.toUnsigned)] :=
    (Event.assign_cons_topic_eq_ok_iff rfl).mpr
      ⟨Event.decodeTopic_of_encode rfl (encode_word key),
        (Event.assign_cons_value_eq_ok_iff rfl).mpr rfl⟩
  rw [← hassign]
  exact Event.decode_signatureTopics hdata

/-- **A stored value is decoded from the log**, with its key, whatever the
two are. -/
theorem decodes_stored (key value : Word) (calldata : Bytes) :
    ∃ code, assemble (directives key value) = .ok code
      ∧ ∃ x bs log, execute .standard code calldata = .ok x ∧ x.outcome = .returned bs
        ∧ x.logs = [log] ∧ event.decode log.topics log.data
          = .ok [("key", .uint 256 key.toUnsigned), ("value", .uint 256 value.toUnsigned)] :=
  ⟨_, assemble_directives key value, _, [], log event.topic key value,
    execute_code event.topic key value calldata, rfl, rfl, decode_log key value⟩

end Stored

end EthCall
