import EthCall.Abi.Payload
import EthCall.Proofs.Abi.Static

/-!
# Logs of events

A contract logs an event as the format has it: behind the topic that names
the event there is a word for each indexed parameter, and the others are
encoded as one sequence in the data. `Event.Emits` is that log. A word of
the topics holds a scalar itself, but of everything else – a text, an
array, a tuple – only the digest.

A decoded log shows the parameters in the order of their declaration, so
the two stretches have to be put together again. They are taken apart and
put together one parameter after the other, and so each statement about
them is an induction on the parameters (`Event.assign_eq_ok_iff`).

Which of the words are digests, a log does not tell. Decoding takes a word
for a digest if the schema is *dynamic*, which is a matter of layout and
leaves out the tuples and fixed arrays without a dynamic part. They are
logged as digests as well, and their digest is taken for a value. Without
such parameters a log is decoded to what was logged, and with one it never
is (`Event.decode_eq_ok_iff_of_emits`).
-/

namespace EthCall.Abi

/-! ## Emission -/

/-- **What a log has for a parameter.** -/
inductive Argument where
  /-- A value. -/
  | value (v : Value)
  /-- The digest of a value. -/
  | digest (d : Word)

/-- What a decoded log is to show of it. Of a digest that is its bytes. -/
def Argument.shown : Argument → Value
  | value v => v
  | digest d => .fixedBytes d.bytes

/-- **What a parameter may have in a log**: a value that conforms to its
schema, if it is in the data or a scalar, and otherwise any digest. -/
inductive EventParam.Takes (p : EventParam) : Argument → Prop
  /-- A value in the data. -/
  | data {v : Value} (hp : p.indexed = false) (hv : v.Conforms p.param.schema) :
    Takes p (.value v)
  /-- A scalar among the topics. -/
  | scalar {v : Value} (hp : p.indexed = true) (hs : p.param.schema.isScalar = true)
    (hv : v.Conforms p.param.schema) : Takes p (.value v)
  /-- A digest among the topics. -/
  | digest (d : Word) (hp : p.indexed = true) (hs : p.param.schema.isScalar = false) :
    Takes p (.digest d)

/-- **How parameters are logged**: the words that come among the topics and
the values that come into the data, each in order. -/
inductive Logged : List EventParam → List Argument → List Word → List Value → Prop
  /-- There is nothing to log. -/
  | nil : Logged [] [] [] []
  /-- A value comes into the data. -/
  | data {p : EventParam} {v : Value} {ps : List EventParam} {arguments : List Argument}
    {words : List Word} {values : List Value} (hp : p.indexed = false)
    (h : Logged ps arguments words values) :
    Logged (p :: ps) (.value v :: arguments) words (v :: values)
  /-- A value that comes among the topics is encoded. -/
  | scalar {p : EventParam} {v : Value} {w : Word} {ps : List EventParam}
    {arguments : List Argument} {words : List Word} {values : List Value} (hp : p.indexed = true)
    (hw : encode [v] [p.param.schema] = .ok w.bytes) (h : Logged ps arguments words values) :
    Logged (p :: ps) (.value v :: arguments) (w :: words) values
  /-- A digest is a word. -/
  | digest {p : EventParam} {d : Word} {ps : List EventParam} {arguments : List Argument}
    {words : List Word} {values : List Value} (hp : p.indexed = true)
    (h : Logged ps arguments words values) :
    Logged (p :: ps) (.digest d :: arguments) (d :: words) values

namespace Event

/-- The topics in front of those of the parameters. -/
def signatureTopics (e : Event) : List Word :=
  if e.anonymous then [] else [e.topic]

/-- **The log of an event.** -/
inductive Emits (e : Event) (arguments : List Argument) : (topics : List Word) → (data : Bytes) →
    Prop
  | log {words : List Word} {values : List Value} {data : Bytes}
    (h : Logged e.inputs arguments words values) (hdata : encode values e.dataSchemas = .ok data) :
    Emits e arguments (e.signatureTopics ++ words) data

/-- The parameters by name, with what is to be shown of them. -/
def named (ps : List EventParam) (arguments : List Argument) : List (String × Value) :=
  List.zipWith (fun p a => (p.param.name, a.shown)) ps arguments

/-! ## The topics of a parameter -/

variable {s : Schema} {v : Value} {d w : Word}

/-- A scalar that conforms is encoded as a word. -/
theorem exists_word_of_conforms (hs : s.isScalar = true) (hvalid : s.IsValid)
    (hv : v.Conforms s) : ∃ w : Word, encode [v] [s] = .ok w.bytes := by
  have hschemas : ∀ t ∈ [s], t.IsValid := List.forall_mem_singleton.mpr hvalid
  obtain ⟨bs, hbs⟩ := exists_encode_of_conforms hschemas (.cons hv .nil)
  have hlen : bs.length = 32 := by
    obtain ⟨-, parts, hparts, rfl⟩ := encode_eq_ok_iff.mp hbs
    cases hparts with
    | cons hbody hrest =>
      cases hrest
      rw [Schema.isDynamic_of_isScalar hs, Part.layout_cons_static, List.length_append,
        Value.length_encode_of_isScalar hs hvalid hbody]
      rfl
  exact ⟨⟨bs, hlen⟩, hbs⟩

/-- A scalar is decoded from its word. -/
theorem decodeTopic_of_encode (hs : s.isScalar = true) (h : encode [v] [s] = .ok w.bytes) :
    decodeTopic s w = .ok v := by
  have hstatic := Schema.isDynamic_of_isScalar hs
  have hdecode : Abi.decode w.bytes [s] = .ok [v] := by
    refine decode_of_encode h (List.prefix_refl _) fun hd => ?_
    rw [Schema.anyDynamic, hstatic] at hd
    cases hd
  unfold decodeTopic decodeSingle
  rw [if_neg (by rw [hstatic]; decide), hdecode]
  rfl

/-- A digest is shown as it is where the schema is dynamic. -/
theorem decodeTopic_of_isDynamic (hs : s.isDynamic = true) :
    decodeTopic s d = .ok (.fixedBytes d.bytes) := by
  unfold decodeTopic
  rw [if_pos hs]

/-- **A digest is never shown where the schema is static**, unless byte
strings of a fixed size were asked for. -/
theorem decodeTopic_ne_of_static (hscalar : s.isScalar = false) (hstatic : s.isDynamic = false)
    (bs : Bytes) : decodeTopic s d ≠ .ok (.fixedBytes bs) := by
  intro h
  unfold decodeTopic decodeSingle at h
  rw [if_neg (by rw [hstatic]; decide)] at h
  cases hdecode : Abi.decode d.bytes [s] with
  | error e => rw [hdecode] at h; cases h
  | ok values =>
    rw [hdecode] at h
    obtain ⟨-, hconforms⟩ := conforms_of_decode hdecode
    cases hconforms with
    | cons hv hrest =>
      cases hrest
      cases h
      cases hv
      cases hscalar

/-! ## Logs exist -/

variable {p : EventParam} {ps : List EventParam} {arguments : List Argument} {words : List Word}
  {values : List Value}

/-- **Whatever the parameters take is logged**, and what comes into the
data conforms to the schemas there. -/
theorem exists_logged (hvalid : ∀ p ∈ ps, p.param.schema.IsValid)
    (htakes : List.Forall₂ EventParam.Takes ps arguments) :
    ∃ words values, Logged ps arguments words values
      ∧ List.Forall₂ Value.Conforms values
          ((ps.filter fun p => !p.indexed).map fun p => p.param.schema) := by
  induction htakes with
  | nil => exact ⟨[], [], .nil, .nil⟩
  | @cons p a ps arguments htake _ ih =>
    obtain ⟨hp, hps⟩ := List.forall_mem_cons.mp hvalid
    obtain ⟨words, values, hlogged, hconforms⟩ := ih hps
    cases htake with
    | data hdata hv =>
      refine ⟨words, _ :: values, .data hdata hlogged, ?_⟩
      rw [List.filter_cons_of_pos (by rw [hdata]; rfl), List.map_cons]
      exact .cons hv hconforms
    | scalar hindexed hs hv =>
      obtain ⟨w, hw⟩ := exists_word_of_conforms hs hp hv
      refine ⟨w :: words, values, .scalar hindexed hw hlogged, ?_⟩
      rwa [List.filter_cons_of_neg (by rw [hindexed]; decide)]
    | digest d hindexed _ =>
      refine ⟨d :: words, values, .digest hindexed hlogged, ?_⟩
      rwa [List.filter_cons_of_neg (by rw [hindexed]; decide)]

/-- An event with valid schemas is emitted with what its parameters
take. -/
theorem exists_emits {e : Event} (hvalid : ∀ p ∈ e.inputs, p.param.schema.IsValid)
    (htakes : List.Forall₂ EventParam.Takes e.inputs arguments) :
    ∃ topics data, e.Emits arguments topics data := by
  obtain ⟨words, values, hlogged, hconforms⟩ := exists_logged hvalid htakes
  have hschemas : ∀ s ∈ e.dataSchemas, s.IsValid := by
    intro s hs
    obtain ⟨p, hp, rfl⟩ := List.mem_map.mp hs
    exact hvalid p (List.mem_of_mem_filter hp)
  obtain ⟨data, hdata⟩ := exists_encode_of_conforms hschemas hconforms
  exact ⟨_, data, .log hlogged hdata⟩

/-! ## Putting the parameters together again -/

/-- An indexed parameter uses up the topic in front. -/
theorem assign_cons_topic_eq_ok_iff {rest : List (String × Value)} (hp : p.indexed = true) :
    assign (p :: ps) (w :: words) values = .ok ((p.param.name, v) :: rest)
      ↔ decodeTopic p.param.schema w = .ok v ∧ assign ps words values = .ok rest := by
  rw [assign.eq_def]
  dsimp only
  rw [if_pos hp]
  cases decodeTopic p.param.schema w with
  | error e => simp
  | ok shown => cases assign ps words values <;> simp

/-- Any other uses up the value in front. -/
theorem assign_cons_value_eq_ok_iff {rest : List (String × Value)} (hp : p.indexed = false) :
    assign (p :: ps) words (v :: values) = .ok ((p.param.name, v) :: rest)
      ↔ assign ps words values = .ok rest := by
  rw [assign.eq_def]
  dsimp only
  rw [if_neg (by rw [hp]; decide)]
  cases assign ps words values <;> simp

/-- **What was taken apart comes together again** just if no parameter is
logged as a digest and decoded as a value. -/
theorem assign_eq_ok_iff (htakes : List.Forall₂ EventParam.Takes ps arguments)
    (hlogged : Logged ps arguments words values) :
    assign ps words values = .ok (named ps arguments)
      ↔ ∀ p ∈ ps, p.indexed = true →
          p.param.schema.isScalar = true ∨ p.param.schema.isDynamic = true := by
  induction hlogged with
  | nil => simp [assign, named]
  | data hp _ ih =>
    obtain ⟨-, hrest⟩ := List.forall₂_cons.mp htakes
    rw [List.forall_mem_cons, ← ih hrest]
    refine (assign_cons_value_eq_ok_iff hp).trans (iff_and_self.mpr fun _ h => ?_)
    rw [hp] at h
    cases h
  | @scalar p _ _ _ _ _ _ hp hw _ ih =>
    obtain ⟨htake, hrest⟩ := List.forall₂_cons.mp htakes
    have hs : p.param.schema.isScalar = true := by
      cases htake with
      | data hdata => rw [hp] at hdata; cases hdata
      | scalar _ hs _ => exact hs
    rw [List.forall_mem_cons, ← ih hrest]
    refine (assign_cons_topic_eq_ok_iff hp).trans (and_congr_left fun _ => ?_)
    exact iff_of_true (decodeTopic_of_encode hs hw) fun _ => .inl hs
  | @digest p d _ _ _ _ hp _ ih =>
    obtain ⟨htake, hrest⟩ := List.forall₂_cons.mp htakes
    have hs : p.param.schema.isScalar = false := by
      cases htake with
      | digest _ _ hs => exact hs
    rw [List.forall_mem_cons, ← ih hrest]
    refine (assign_cons_topic_eq_ok_iff hp).trans (and_congr_left fun _ => ?_)
    cases hd : p.param.schema.isDynamic with
    | true => exact iff_of_true (decodeTopic_of_isDynamic hd) fun _ => .inr rfl
    | false =>
      refine iff_of_false (decodeTopic_ne_of_static hs hd _) fun h => ?_
      rcases h hp with h | h
      · rw [hs] at h; cases h
      · cases h

/-! ## Decoding a log -/

/-- The topics of a log behind the one that names the event. -/
theorem parameterTopics_signatureTopics (e : Event) (words : List Word) :
    e.parameterTopics (e.signatureTopics ++ words) = .ok words := by
  unfold parameterTopics signatureTopics
  cases e.anonymous with
  | true => rfl
  | false => exact if_pos rfl

/-- What is decoded of a log, once its data is. -/
theorem decode_signatureTopics {e : Event} {data : Bytes}
    (hdata : Abi.decode data e.dataSchemas = .ok values) :
    e.decode (e.signatureTopics ++ words) data = assign e.inputs words values := by
  unfold decode
  rw [parameterTopics_signatureTopics]
  dsimp only
  rw [hdata]

/-- **When a log is decoded to what was logged.** -/
theorem decode_eq_ok_iff_of_emits {e : Event} {topics : List Word} {data junk : Bytes}
    (htakes : List.Forall₂ EventParam.Takes e.inputs arguments)
    (h : e.Emits arguments topics data) (hsize : data.length + junk.length < 2 ^ 64) :
    e.decode topics (data ++ junk) = .ok (named e.inputs arguments)
      ↔ ∀ p ∈ e.inputs, p.indexed = true →
          p.param.schema.isScalar = true ∨ p.param.schema.isDynamic = true := by
  obtain ⟨hlogged, hdata⟩ := h
  rw [← assign_eq_ok_iff htakes hlogged, decode_signatureTopics]
  refine decode_of_encode hdata (List.prefix_append _ _) fun _ => ?_
  rw [List.length_append]
  exact Nat.le_pred_of_lt hsize

/-- **A log is decoded to what was logged**, parameter by parameter in the
order of their declaration and whatever stands behind the data, if each
indexed parameter is a scalar or dynamic. And a log of an event that has a
topic is never taken for that of another. -/
theorem decode_emitted (e : Event) :
    ((∀ p ∈ e.inputs, p.param.schema.IsValid) →
      (∀ p ∈ e.inputs, p.indexed = true →
        p.param.schema.isScalar = true ∨ p.param.schema.isDynamic = true) →
      ∀ arguments, List.Forall₂ EventParam.Takes e.inputs arguments →
        (∃ topics data, e.Emits arguments topics data)
        ∧ ∀ topics data junk, e.Emits arguments topics data →
            data.length + junk.length < 2 ^ 64 →
            e.decode topics (data ++ junk) = .ok (named e.inputs arguments))
    ∧ (e.anonymous = false →
      (∀ first rest data, first ≠ e.topic →
        e.decode (first :: rest) data = .error (.selectorMismatch e.topic.bytes first.bytes))
      ∧ ∀ data, e.decode [] data = .error (.corrupt .missingSignatureTopic)) := by
  refine ⟨fun hvalid hindexed arguments htakes => ⟨exists_emits hvalid htakes, ?_⟩, fun hnamed =>
    ⟨fun first rest data hfirst => ?_, fun data => ?_⟩⟩
  · intro topics data junk hemits hsize
    exact (decode_eq_ok_iff_of_emits htakes hemits hsize).mpr hindexed
  · unfold decode parameterTopics
    rw [if_neg (by rw [hnamed]; decide)]
    dsimp only
    rw [if_neg hfirst]
  · unfold decode parameterTopics
    rw [if_neg (by rw [hnamed]; decide)]

/-- The log of an event with indexed and other parameters in turn, that
of another event and one without topics. -/
theorem decode_emitted_interleaved :
    ∃ (e : Event) (arguments : List Argument), e.anonymous = false
      ∧ (∃ topics data, e.Emits arguments topics data
        ∧ e.decode topics (data ++ [0xff])
          = .ok [("memo", .fixedBytes (List.replicate 32 0xab)), ("fee", .uint 8 3),
              ("gap", .int 16 (-2)), ("note", .string "to you"), ("value", .uint 8 4)])
      ∧ e.decode [Word.ofNat 1] []
          = .error (.selectorMismatch e.topic.bytes (Word.ofNat 1).bytes)
      ∧ e.decode [] [] = .error (.corrupt .missingSignatureTopic) := by
  let e : Event := ⟨"Sent", [⟨⟨"memo", .array .string⟩, true⟩, ⟨⟨"fee", .uint 8⟩, false⟩,
    ⟨⟨"gap", .int 16⟩, true⟩, ⟨⟨"note", .string⟩, false⟩, ⟨⟨"value", .uint 8⟩, true⟩], false⟩
  let memo : Word := ⟨List.replicate 32 0xab, rfl⟩
  let arguments : List Argument := [.digest memo, .value (.uint 8 3), .value (.int 16 (-2)),
    .value (.string "to you"), .value (.uint 8 4)]
  have htakes : List.Forall₂ EventParam.Takes e.inputs arguments :=
    .cons (.digest memo rfl rfl) <| .cons (.data rfl (.uint (by decide))) <|
      .cons (.scalar rfl rfl (.int (by decide) (by decide) (by decide))) <|
        .cons (.data rfl (.string _)) <| .cons (.scalar rfl rfl (.uint (by decide))) .nil
  have hlogged : Logged e.inputs arguments [memo, Word.ofInt (-2), Word.ofNat 4]
      [.uint 8 3, .string "to you"] :=
    .digest rfl <| .data rfl <| .scalar rfl rfl <| .data rfl <| .scalar rfl rfl .nil
  refine ⟨e, arguments, rfl, ⟨_, _, .log hlogged rfl, ?_⟩, ?_, ?_⟩
  · exact ((decode_emitted e).1 (by decide) (by decide) arguments htakes).2 _ _ [0xff]
      (.log hlogged rfl) (by decide +kernel)
  · exact ((decode_emitted e).2 rfl).1 (Word.ofNat 1) [] [] (by decide +kernel)
  · exact ((decode_emitted e).2 rfl).2 []

/-- **A log is decoded to what was logged just if no indexed parameter is
a static tuple or array.** The digest of such a parameter is taken for the
value itself, which at best is another one. -/
theorem decode_emitted_iff (e : Event) (hvalid : ∀ p ∈ e.inputs, p.param.schema.IsValid)
    (arguments : List Argument) (htakes : List.Forall₂ EventParam.Takes e.inputs arguments) :
    (∃ topics data, e.Emits arguments topics data)
    ∧ ∀ topics data, e.Emits arguments topics data → data.length < 2 ^ 64 →
        (e.decode topics data = .ok (named e.inputs arguments)
          ↔ ∀ p ∈ e.inputs, p.indexed = true →
              p.param.schema.isScalar = true ∨ p.param.schema.isDynamic = true) := by
  refine ⟨exists_emits hvalid htakes, fun topics data hemits hsize => ?_⟩
  have h : e.decode topics (data ++ []) = _ ↔ _ := decode_eq_ok_iff_of_emits htakes hemits hsize
  rwa [List.append_nil] at h

/-- A tuple of one member behind a text. -/
theorem decode_emitted_iff_tuple :
    let e : Event :=
      ⟨"Moved", [⟨⟨"name", .string⟩, false⟩, ⟨⟨"point", .tuple [.uint 256]⟩, true⟩], false⟩
    let arguments : List Argument := [.value (.string "here"), .digest (Word.ofNat 7)]
    (∀ p ∈ e.inputs, p.param.schema.IsValid)
      ∧ List.Forall₂ EventParam.Takes e.inputs arguments
      ∧ ∃ topics data, e.Emits arguments topics data ∧ data.length < 2 ^ 64
        ∧ (e.decode topics data = .ok (named e.inputs arguments)
          ↔ ∀ p ∈ e.inputs, p.indexed = true →
              p.param.schema.isScalar = true ∨ p.param.schema.isDynamic = true) := by
  intro e arguments
  have htakes : List.Forall₂ EventParam.Takes e.inputs arguments :=
    .cons (.data rfl (.string _)) <| .cons (.digest _ rfl rfl) .nil
  have hlogged : Logged e.inputs arguments [Word.ofNat 7] [.string "here"] :=
    .data rfl <| .digest rfl .nil
  refine ⟨by decide, htakes, _, _, .log hlogged rfl, by decide +kernel, ?_⟩
  exact (decode_emitted_iff e (by decide) arguments htakes).2 _ _ (.log hlogged rfl)
    (by decide +kernel)

/-- **Digests taken for values.** The digest of a tuple of one number is
shown as such a tuple, and that of two numbers is refused for its size. -/
theorem decode_emitted_misread :
    let digest : Word := Word.ofNat 7
    let single : Event := ⟨"Moved", [⟨⟨"point", .tuple [.uint 256]⟩, true⟩], false⟩
    let pair : Event := ⟨"Moved", [⟨⟨"point", .fixedArray (.uint 256) 2⟩, true⟩], false⟩
    (∀ e ∈ [single, pair], e.anonymous = false ∧ (∀ p ∈ e.inputs, p.param.schema.IsValid)
      ∧ List.Forall₂ EventParam.Takes e.inputs [.digest digest]
      ∧ e.Emits [.digest digest] [e.topic, digest] []
      ∧ e.decode [e.topic, digest] [] ≠ .ok [("point", .fixedBytes digest.bytes)])
    ∧ single.decode [single.topic, digest] [] = .ok [("point", .tuple [.uint 256 7])]
    ∧ pair.decode [pair.topic, digest] [] = .error (.outOfBounds 0 64 32) := by
  intro digest single pair
  have hsingle :
      single.decode [single.topic, digest] [] = .ok [("point", .tuple [.uint 256 7])] :=
    (decode_signatureTopics (e := single) rfl).trans (by decide +kernel)
  have hpair : pair.decode [pair.topic, digest] [] = .error (.outOfBounds 0 64 32) :=
    (decode_signatureTopics (e := pair) rfl).trans (by decide +kernel)
  have hlogged {s : Schema} :
      Logged [⟨⟨"point", s⟩, true⟩] [.digest digest] [digest] [] :=
    .digest rfl .nil
  refine ⟨List.forall_mem_cons.mpr ⟨?_, List.forall_mem_singleton.mpr ?_⟩, hsingle, hpair⟩
  · refine ⟨rfl, by decide, .cons (.digest _ rfl rfl) .nil, .log hlogged rfl, ?_⟩
    rw [hsingle]
    intro h
    cases h
  · refine ⟨rfl, by decide, .cons (.digest _ rfl rfl) .nil, .log hlogged rfl, ?_⟩
    rw [hpair]
    intro h
    cases h

end Event

end EthCall.Abi
