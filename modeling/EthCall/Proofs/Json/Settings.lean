import EthCall.Json.Settings
import EthCall.Proofs.Hex
import EthCall.Proofs.Json.Record

/-!
# Settings kept as texts

Settings are read field by field, each under its name and each with a
default of its own, and the block in them is read in the same way. So it
does not matter which of the fields are there and in which order, and the
settings that come out can be said directly: the standard ones, with exactly
those fields replaced (`Settings.only`). All fields in their order are only
one case of this.

To say which fields are there they get names of their own
(`Settings.Field`, `BlockEnv.Field`). Those that are byte strings are kept
apart (`BlockEnv.HexField`), because there is more than one text for each of
them: any that spells its bytes is read, and one that spells another number
of bytes is not.
-/

namespace EthCall

/-! ## Values -/

/-- A number of 64 bits is read again. -/
theorem Json.asUInt64?_natural (n : UInt64) : Json.asUInt64? (.natural n.toNat) = some n := by
  have hn : n.toNat ≤ maxSize := Nat.le_of_lt_succ n.toNat_lt
  show (if n.toNat ≤ maxSize then some (UInt64.ofNat n.toNat) else none) = some n
  rw [if_pos hn, UInt64.ofNat_toNat]

/-- A number among fields that may be missing replaces its default. -/
theorem Json.optional?_given_natural {ι : Type} [DecidableEq ι] {value : ι → Json}
    {all fs : List ι} {f : ι} {i : Nat} {n default : UInt64} (hi : all[i]? = some f)
    (hvalue : value f = .natural n.toNat) :
    optional? (given all fs value) i default asUInt64? = some (if f ∈ fs then n else default) :=
  optional?_given_eq_some hi fun _ => by rw [hvalue, asUInt64?_natural]

/-- **A byte string is read from the texts that spell it.** -/
theorem FixedBytes.ofJson?_text_eq_some_iff {n : Nat} {s : String} {b : FixedBytes n} :
    FixedBytes.ofJson? n (.text s) = some b ↔ Hex.Spells s b.bytes := by
  rw [← Hex.parse_eq_ok_iff_spells]
  show (FixedBytes.parseHex n s).toOption = some b ↔ _
  unfold FixedBytes.parseHex FixedBytes.ofBytes?
  cases Hex.parse s with
  | error e => simp [Except.toOption]
  | ok bs =>
    dsimp only
    by_cases hlen : bs.length = n
    · rw [dif_pos hlen]
      simp [Except.toOption, FixedBytes.ext_iff]
    · rw [dif_neg hlen]
      have hne : bs ≠ b.bytes := fun h => hlen (h ▸ b.length_bytes)
      simp [Except.toOption, hne]

namespace Evm

/-- A profile is read again. -/
theorem Profile.asChoice?_name (p : Profile) :
    Json.asChoice? Profile.name Profile.all (.text p.name) = some p := by
  cases p <;> rfl

/-! ## Fields of a block -/

/-- The fields of a block that are byte strings. -/
inductive BlockEnv.HexField where
  /-- The account the fees go to. -/
  | coinbase
  /-- The randomness of the block. -/
  | prevRandao
  /-- The contract that is executed. -/
  | address
  /-- The account that calls it. -/
  | caller
  /-- The account the transaction comes from. -/
  | origin
  deriving DecidableEq

/-- The number of bytes of a field. -/
def BlockEnv.HexField.size : HexField → Nat
  | prevRandao => 32
  | _ => 20

/-- The bytes of a field. -/
def BlockEnv.HexField.get (b : BlockEnv) : (f : HexField) → FixedBytes f.size
  | coinbase => b.coinbase
  | prevRandao => b.prevRandao
  | address => b.address
  | caller => b.caller
  | origin => b.origin

/-- **The fields of a block.** -/
inductive BlockEnv.Field where
  /-- The chain. -/
  | chainId
  /-- The number of the block. -/
  | number
  /-- The time of the block. -/
  | timestamp
  /-- The gas of the block. -/
  | gasLimit
  /-- The fee of the block. -/
  | baseFee
  /-- A byte string. -/
  | hex (f : HexField)
  deriving DecidableEq

/-- Texts for the byte strings of a block. -/
abbrev BlockEnv.Texts := BlockEnv.HexField → String

namespace BlockEnv

/-- The name of a field. -/
def Field.name : Field → String
  | chainId => "chain_id"
  | number => "number"
  | timestamp => "timestamp"
  | gasLimit => "gas_limit"
  | baseFee => "base_fee"
  | hex .coinbase => "coinbase"
  | hex .prevRandao => "prevrandao"
  | hex .address => "address"
  | hex .caller => "caller"
  | hex .origin => "origin"

/-- All fields, in their order. -/
def Field.all : List Field :=
  [chainId, number, timestamp, gasLimit, baseFee, hex .coinbase, hex .prevRandao, hex .address,
    hex .caller, hex .origin]

/-- The value of a field as JSON. -/
def Field.json (b : BlockEnv) (texts : Texts) : Field → Json
  | chainId => .natural b.chainId.toNat
  | number => .natural b.number.toNat
  | timestamp => .natural b.timestamp.toNat
  | gasLimit => .natural b.gasLimit.toNat
  | baseFee => .natural b.baseFee.toNat
  | hex f => .text (texts f)

/-- **The object that holds some fields of a block**, its byte strings in the
texts given for them. -/
def object (b : BlockEnv) (fs : List Field) (texts : Texts) : Json :=
  .record (fs.map fun f => (f.name, f.json b texts))

/-- **The first block, with some fields replaced.** -/
def only (b : BlockEnv) (fs : List Field) : BlockEnv where
  chainId := if .chainId ∈ fs then b.chainId else initial.chainId
  number := if .number ∈ fs then b.number else initial.number
  timestamp := if .timestamp ∈ fs then b.timestamp else initial.timestamp
  gasLimit := if .gasLimit ∈ fs then b.gasLimit else initial.gasLimit
  baseFee := if .baseFee ∈ fs then b.baseFee else initial.baseFee
  coinbase := if .hex .coinbase ∈ fs then b.coinbase else initial.coinbase
  prevRandao := if .hex .prevRandao ∈ fs then b.prevRandao else initial.prevRandao
  address := if .hex .address ∈ fs then b.address else initial.address
  caller := if .hex .caller ∈ fs then b.caller else initial.caller
  origin := if .hex .origin ∈ fs then b.origin else initial.origin

/-- The texts in which a block is written. -/
def written (b : BlockEnv) : Texts :=
  fun f => Hex.write (f.get b).bytes

/-- Texts for the byte strings among some fields that spell those of the
block. -/
def SpelledBy (b : BlockEnv) (fs : List Field) (texts : Texts) : Prop :=
  ∀ f, .hex f ∈ fs → Hex.Spells (texts f) (f.get b).bytes

variable {b c : BlockEnv} {fs : List Field} {texts : Texts}

theorem Field.name_injective : Function.Injective Field.name := by
  refine Json.injective_of_find? Field.all fun f => ?_
  cases f with
  | hex f => cases f <;> rfl
  | _ => rfl

/-- The written texts spell the block. -/
theorem spelledBy_written (b : BlockEnv) (fs : List Field) : b.SpelledBy fs b.written :=
  fun _ _ => Hex.spells_write _

/-- What a block is written as holds all of its fields. -/
theorem toJson_eq_object (b : BlockEnv) : b.toJson = b.object Field.all b.written := rfl

/-- With all fields replaced nothing is left of the first block. -/
theorem only_all (b : BlockEnv) : b.only Field.all = b := by
  simp [only, Field.all]

theorem isWritable_object : (b.object fs texts).IsWritable := by
  refine Json.isWritable_record fun m hm => ?_
  obtain ⟨f, -, rfl⟩ := List.mem_map.mp hm
  cases f with
  | hex f => exact .text _
  | _ => exact .number _

/-- The fields that are given are found. -/
theorem fields?_object (hfs : fs.Nodup) : (b.object fs texts).fields?
    ["chain_id", "number", "timestamp", "gas_limit", "base_fee", "coinbase", "prevrandao",
      "address", "caller", "origin"]
      = some (Json.given Field.all fs fun f => f.json b texts) :=
  Json.fields?_record_map Field.name_injective hfs Field.all

/-- **Some fields of a block are read** as the first block with these fields
replaced. -/
theorem ofJson?_object (hfs : fs.Nodup) (htexts : b.SpelledBy fs texts) :
    BlockEnv.ofJson? (b.object fs texts) = some (b.only fs) := by
  have hread (f : HexField) (hf : .hex f ∈ fs) :
      FixedBytes.ofJson? f.size (.text (texts f)) = some (f.get b) :=
    FixedBytes.ofJson?_text_eq_some_iff.mpr (htexts f hf)
  unfold BlockEnv.ofJson?
  rw [fields?_object hfs]
  -- field by field, in the order in which they are read
  refine (Option.bind_some ..).trans ?_
  refine Option.bind_eq_some_iff.mpr ⟨_, Json.optional?_given_natural rfl rfl, ?_⟩
  refine Option.bind_eq_some_iff.mpr ⟨_, Json.optional?_given_natural rfl rfl, ?_⟩
  refine Option.bind_eq_some_iff.mpr ⟨_, Json.optional?_given_natural rfl rfl, ?_⟩
  refine Option.bind_eq_some_iff.mpr ⟨_, Json.optional?_given_natural rfl rfl, ?_⟩
  refine Option.bind_eq_some_iff.mpr ⟨_, Json.optional?_given_natural rfl rfl, ?_⟩
  refine Option.bind_eq_some_iff.mpr ⟨_, Json.optional?_given_eq_some rfl (hread .coinbase), ?_⟩
  refine Option.bind_eq_some_iff.mpr ⟨_, Json.optional?_given_eq_some rfl (hread .prevRandao), ?_⟩
  refine Option.bind_eq_some_iff.mpr ⟨_, Json.optional?_given_eq_some rfl (hread .address), ?_⟩
  refine Option.bind_eq_some_iff.mpr ⟨_, Json.optional?_given_eq_some rfl (hread .caller), ?_⟩
  refine Option.bind_eq_some_iff.mpr ⟨_, Json.optional?_given_eq_some rfl (hread .origin), ?_⟩
  rfl

/-- **Of a block that is read** the texts spell the byte strings. -/
theorem spelledBy_of_ofJson? (hfs : fs.Nodup) (h : BlockEnv.ofJson? (b.object fs texts) = some c) :
    c.SpelledBy fs texts := by
  simp only [BlockEnv.ofJson?, fields?_object hfs, Option.bind_eq_bind, Option.bind_some,
    Option.bind_eq_some_iff] at h
  obtain ⟨_, -, _, -, _, -, _, -, _, -, coinbase, hcoinbase, prevRandao, hprevRandao, address,
    haddress, caller, hcaller, origin, horigin, h⟩ := h
  cases h
  intro f hf
  refine FixedBytes.ofJson?_text_eq_some_iff.mp ?_
  have hgiven {i : Nat} {d : FixedBytes f.size} (hi : Field.all[i]? = some (.hex f)) :
      Json.optional? (Json.given Field.all fs fun f => f.json b texts) i d
          (FixedBytes.ofJson? f.size)
        = FixedBytes.ofJson? f.size (.text (texts f)) :=
    (Json.optional?_given hi).trans (if_pos hf)
  cases f with
  | coinbase => exact (hgiven rfl).symm.trans hcoinbase
  | prevRandao => exact (hgiven rfl).symm.trans hprevRandao
  | address => exact (hgiven rfl).symm.trans haddress
  | caller => exact (hgiven rfl).symm.trans hcaller
  | origin => exact (hgiven rfl).symm.trans horigin

end BlockEnv

/-! ## Fields of settings -/

/-- **The fields of settings.** -/
inductive Settings.Field where
  /-- Where the limits come from. -/
  | profile
  /-- The largest number of instructions. -/
  | stepLimit
  /-- The largest number of bytes of memory. -/
  | memoryLimit
  /-- The largest number of entries on the stack. -/
  | stackLimit
  /-- The largest number of bytes of code. -/
  | maxCodeSize
  /-- The block. -/
  | block
  deriving DecidableEq

namespace Settings

/-- The name of a field. -/
def Field.name : Field → String
  | profile => "profile"
  | stepLimit => "step_limit"
  | memoryLimit => "memory_limit"
  | stackLimit => "stack_limit"
  | maxCodeSize => "max_code_size"
  | block => "block"

/-- All fields, in their order. -/
def Field.all : List Field :=
  [profile, stepLimit, memoryLimit, stackLimit, maxCodeSize, block]

/-- The value of a field as JSON, which of a block are some of its fields. -/
def Field.json (s : Settings) (bs : List BlockEnv.Field) (texts : BlockEnv.Texts) : Field → Json
  | profile => .text s.profile.name
  | stepLimit => .natural s.stepLimit.toNat
  | memoryLimit => .natural s.memoryLimit.toNat
  | stackLimit => .natural s.stackLimit.toNat
  | maxCodeSize => .natural s.maxCodeSize.toNat
  | block => s.block.object bs texts

/-- **The object that holds some fields of settings**, and some of the
block. -/
def object (s : Settings) (fs : List Field) (bs : List BlockEnv.Field) (texts : BlockEnv.Texts) :
    Json :=
  .record (fs.map fun f => (f.name, f.json s bs texts))

/-- **The standard settings, with some fields replaced**, and of the block
some of its fields. -/
def only (s : Settings) (fs : List Field) (bs : List BlockEnv.Field) : Settings where
  profile := if .profile ∈ fs then s.profile else standard.profile
  stepLimit := if .stepLimit ∈ fs then s.stepLimit else standard.stepLimit
  memoryLimit := if .memoryLimit ∈ fs then s.memoryLimit else standard.memoryLimit
  stackLimit := if .stackLimit ∈ fs then s.stackLimit else standard.stackLimit
  maxCodeSize := if .maxCodeSize ∈ fs then s.maxCodeSize else standard.maxCodeSize
  block := if .block ∈ fs then s.block.only bs else standard.block

/-- **The check that settings have to pass.** -/
def validate (s : Settings) : Except Report Unit :=
  match s.defect? with
  | some e => .error (.ofSettingsError e)
  | none => .ok ()

variable {s t : Settings} {fs : List Field} {bs : List BlockEnv.Field} {texts : BlockEnv.Texts}
  {f : BlockEnv.HexField} {text : String}

theorem Field.name_injective : Function.Injective Field.name := by
  refine Json.injective_of_find? Field.all fun f => ?_
  cases f <;> rfl

/-- What settings are written as holds all of their fields. -/
theorem toJson_eq_object (s : Settings) :
    s.toJson = s.object Field.all BlockEnv.Field.all s.block.written := rfl

/-- With all fields replaced nothing is left of the standard settings. -/
theorem only_all (s : Settings) : s.only Field.all BlockEnv.Field.all = s := by
  simp [only, Field.all, BlockEnv.only_all]

theorem isWritable_object : (s.object fs bs texts).IsWritable := by
  refine Json.isWritable_record fun m hm => ?_
  obtain ⟨f, -, rfl⟩ := List.mem_map.mp hm
  cases f with
  | profile => exact .text _
  | block => exact BlockEnv.isWritable_object
  | _ => exact .number _

/-- The fields that are given are found. -/
theorem fields?_object (hfs : fs.Nodup) : (s.object fs bs texts).fields?
    ["profile", "step_limit", "memory_limit", "stack_limit", "max_code_size", "block"]
      = some (Json.given Field.all fs fun f => f.json s bs texts) :=
  Json.fields?_record_map Field.name_injective hfs Field.all

/-- **Some fields of settings are read** as the standard settings with these
fields replaced. -/
theorem ofJson?_object (hfs : fs.Nodup) (hbs : bs.Nodup) (htexts : s.block.SpelledBy bs texts) :
    Settings.ofJson? (s.object fs bs texts) = some (s.only fs bs) := by
  have hprofile := Profile.asChoice?_name s.profile
  have hblock := BlockEnv.ofJson?_object hbs htexts
  unfold Settings.ofJson?
  rw [fields?_object hfs]
  refine (Option.bind_some ..).trans ?_
  refine Option.bind_eq_some_iff.mpr ⟨_, Json.optional?_given_eq_some rfl fun _ => hprofile, ?_⟩
  refine Option.bind_eq_some_iff.mpr ⟨_, Json.optional?_given_natural rfl rfl, ?_⟩
  refine Option.bind_eq_some_iff.mpr ⟨_, Json.optional?_given_natural rfl rfl, ?_⟩
  refine Option.bind_eq_some_iff.mpr ⟨_, Json.optional?_given_natural rfl rfl, ?_⟩
  refine Option.bind_eq_some_iff.mpr ⟨_, Json.optional?_given_natural rfl rfl, ?_⟩
  refine Option.bind_eq_some_iff.mpr ⟨_, Json.optional?_given_eq_some rfl fun _ => hblock, ?_⟩
  rfl

/-- **A byte string of the wrong size is not read**, nor a text that spells
none. -/
theorem ofJson?_object_eq_none (hfs : fs.Nodup) (hbs : bs.Nodup) (hblock : .block ∈ fs)
    (hf : .hex f ∈ bs) (hsize : ∀ x, Hex.Spells (texts f) x → x.length ≠ f.size) :
    Settings.ofJson? (s.object fs bs texts) = none := by
  refine Option.eq_none_iff_forall_ne_some.mpr fun t h => ?_
  simp only [Settings.ofJson?, fields?_object hfs, Option.bind_eq_bind, Option.bind_some,
    Option.bind_eq_some_iff] at h
  obtain ⟨_, -, _, -, _, -, _, -, _, -, c, hc, -⟩ := h
  have hread : BlockEnv.ofJson? (s.block.object bs texts) = some c := by
    rwa [Json.optional?_given rfl, if_pos hblock] at hc
  have hspelled := BlockEnv.spelledBy_of_ofJson? hbs hread f hf
  exact hsize _ hspelled (f.get c).length_bytes

/-! ## Texts -/

/-- What is read still has to pass the check. -/
theorem parse_of_eq_some (h : (Json.parse? text).bind Settings.ofJson? = some s) :
    Settings.parse text = s.validate.map fun _ => s := by
  unfold Settings.parse validate
  rw [h]
  dsimp only
  cases s.defect? <;> rfl

/-- What is not read is not JSON of this shape. -/
theorem parse_of_eq_none (h : (Json.parse? text).bind Settings.ofJson? = none) :
    Settings.parse text = .error .notJson := by
  unfold Settings.parse
  rw [h]

/-- Settings are refused for their limits. -/
theorem code_of_validate {e : Report} (h : s.validate = .error e) : e.code = .invalidConfig := by
  unfold validate at h
  split at h
  · cases h
    rfl
  · cases h

/-- **Settings survive JSON.** All settings are read again from what they are
written as, unless they do not pass the check, and then this is what is
reported. Of fields of the settings and of the block, any of them in any
order,

* the object that holds just these is read, from whatever text it has, as the
  standard settings with exactly these replaced;
* for this the byte strings may be spelled in either case and with or without
  a marker;
* and if one of them is not spelled, or has another number of bytes, nothing
  is read. -/
theorem survives_json (s : Settings) (fs : List Field) (bs : List BlockEnv.Field)
    (texts : BlockEnv.Texts) (text : String) :
    (Settings.parse s.toJson.write = s.validate.map fun _ => s)
    ∧ (∀ e, s.validate = .error e → e.code = .invalidConfig)
    ∧ Json.parse? (s.object fs bs texts).write = some (s.object fs bs texts)
    ∧ (fs.Nodup → bs.Nodup → Json.parse? text = some (s.object fs bs texts) →
      (s.block.SpelledBy bs texts →
        (Json.parse? text).bind Settings.ofJson? = some (s.only fs bs)
        ∧ Settings.parse text = (s.only fs bs).validate.map fun _ => s.only fs bs)
      ∧ (.block ∈ fs →
        (∃ f, .hex f ∈ bs ∧ ∀ x, Hex.Spells (texts f) x → x.length ≠ f.size) →
        (Json.parse? text).bind Settings.ofJson? = none
        ∧ Settings.parse text = .error .notJson)) := by
  refine ⟨?_, fun e => code_of_validate, Json.parse?_write isWritable_object,
    fun hfs hbs htext => ⟨fun htexts => ?_, fun hblock ⟨f, hf, hsize⟩ => ?_⟩⟩
  · refine parse_of_eq_some ?_
    rw [toJson_eq_object, Json.parse?_write isWritable_object, Option.bind_some,
      ofJson?_object (by decide) (by decide) (s.block.spelledBy_written _), only_all]
  · have hread : (Json.parse? text).bind Settings.ofJson? = some (s.only fs bs) := by
      rw [htext, Option.bind_some, ofJson?_object hfs hbs htexts]
    exact ⟨hread, parse_of_eq_some hread⟩
  · have hread : (Json.parse? text).bind Settings.ofJson? = none := by
      rw [htext, Option.bind_some, ofJson?_object_eq_none hfs hbs hblock hf hsize]
    exact ⟨hread, parse_of_eq_none hread⟩

/-- Two fields and two of the block, in an order of their own: an address
without a marker and in upper case is read, and one that is cut short is
not. -/
theorem survives_json_reordered :
    Settings.parse (object
        { strict with block := { BlockEnv.initial with chainId := 10, caller := .ofNat 20 0xaa } }
        [.block, .stepLimit] [.hex .caller, .chainId]
        fun _ => "00000000000000000000000000000000000000AA").write
      = .ok { standard with
          stepLimit := 1000000
          block := { BlockEnv.initial with chainId := 10, caller := .ofNat 20 0xaa } }
    ∧ Settings.parse (strict.object [.block, .stepLimit] [.hex .caller, .chainId]
        fun _ => "0xaa").write
      = .error .notJson := by
  have hcaller {f : BlockEnv.HexField}
      (hf : BlockEnv.Field.hex f ∈ [BlockEnv.Field.hex .caller, .chainId]) : f = .caller := by
    simpa using hf
  constructor
  · obtain ⟨-, -, htext, h⟩ := survives_json
      { strict with block := { BlockEnv.initial with chainId := 10, caller := .ofNat 20 0xaa } }
      [.block, .stepLimit] [.hex .caller, .chainId]
      (fun _ => "00000000000000000000000000000000000000AA") _
    refine ((h (by decide) (by decide) htext).1 fun f hf => ?_).2.trans (by decide +kernel)
    cases hcaller hf
    exact Hex.parse_eq_ok_iff_spells.mp (by decide +kernel)
  · obtain ⟨-, -, htext, h⟩ := survives_json strict [.block, .stepLimit]
      [.hex .caller, .chainId] (fun _ => "0xaa") _
    refine ((h (by decide) (by decide) htext).2 (by decide)
      ⟨.caller, by decide, fun x hx hlen => ?_⟩).2
    have hread : Hex.parse "0xaa" = .ok [0xaa] := by decide +kernel
    rw [Hex.parse_eq_ok_iff_spells.mpr hx] at hread
    cases hread
    exact absurd hlen (by decide)

end Settings

end Evm

end EthCall
