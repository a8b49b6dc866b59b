import EthCall.Abi.Payload
import EthCall.Proofs.Abi.Name

/-!
# Signatures and their spellings

A signature is read from its canonical text, and from texts that differ
from it in blanks and in the short names `uint` and `int`, but from no
others (`Signature.parse_canonically`). What is computed from a text is
therefore computed from the canonical one: a selector or a topic depends on
the name and the schemas alone, and not on how they were written.

The name of a function is not a schema. It may well read `uint`, which is
why only the parameter list is spelled out (`Signature.spelledOut`).
-/

namespace EthCall.Abi.Signature

open Text

variable {s : Signature} {text : String} {c : Char} {cs front rest : List Char}

/-! ## Names -/

/-- **A name** of a function, an error or an event: one or more letters and
digits, underscores and dollar signs. -/
def IsName (name : String) : Prop :=
  name.toList ≠ [] ∧ ∀ c ∈ name.toList, c.isAlphanum = true ∨ c = '_' ∨ c = '$'

theorem isNameChar_iff : isNameChar c = true ↔ c.isAlphanum = true ∨ c = '_' ∨ c = '$' := by
  unfold isNameChar
  rw [Bool.or_eq_true, Bool.or_eq_true, beq_iff_eq, beq_iff_eq, or_assoc]

/-- What the reader asks for is a name. -/
theorem isName_iff {name : String} :
    IsName name ↔ name.toList ≠ [] ∧ name.toList.all isNameChar = true := by
  unfold IsName
  simp only [List.all_eq_true, isNameChar_iff]

/-- No character of a name is blank. -/
theorem IsName.isBlank_eq {name : String} (h : IsName name) (hc : c ∈ name.toList) :
    isBlank c = false := by
  rcases h.2 c hc with hc | rfl | rfl
  · exact isBlank_of_isAlphanum hc
  · decide
  · decide

/-! ## The first parenthesis -/

/-- No character of a name is a parenthesis. -/
theorem IsName.ne_open {name : String} (h : IsName name) (hc : c ∈ name.toList) :
    (c != '(') = true := by
  refine bne_iff_ne.mpr ?_
  rintro rfl
  exact absurd (h.2 _ hc) (by decide)

/-- A parenthesis is not blank. -/
theorem ne_open_of_isBlank (h : isBlank c = true) : (c != '(') = true := by
  refine bne_iff_ne.mpr ?_
  rintro rfl
  revert h
  decide

/-- The name is what stands in front of the first parenthesis. -/
theorem takeWhile_open (h : ∀ c ∈ front, (c != '(') = true) :
    (front ++ '(' :: rest).takeWhile (· != '(') = front := by
  rw [List.takeWhile_append_of_pos h, List.takeWhile_cons_of_neg (by decide), List.append_nil]

/-- The parameter list starts with it. -/
theorem dropWhile_open (h : ∀ c ∈ front, (c != '(') = true) :
    (front ++ '(' :: rest).dropWhile (· != '(') = '(' :: rest := by
  rw [List.dropWhile_append_of_pos h, List.dropWhile_cons_of_neg (by decide)]

/-! ## Reading -/

/-- **How a signature is read** from a text that was trimmed. -/
theorem parse_eq_ok_iff (hcs : trim text.toList = cs) :
    parse text = .ok s
      ↔ trim (cs.takeWhile (· != '(')) = s.name.toList
        ∧ IsName s.name ∧ (cs.dropWhile (· != '(')).getLast? = some ')'
        ∧ Schema.ofChars (cs.dropWhile (· != '(')) = .ok (.tuple s.parameters) := by
  unfold parse
  rw [hcs]
  constructor
  · intro h
    dsimp only at h
    split at h
    case isFalse => cases h
    case isTrue hshape =>
      obtain ⟨hlast, hne, hall⟩ := hshape
      split at h
      case h_1 => cases h
      case h_3 => cases h
      case h_2 members hread =>
        cases h
        rw [String.toList_ofList]
        refine ⟨rfl, isName_iff.mpr ?_, hlast, hread⟩
        rw [String.toList_ofList]
        exact ⟨hne, hall⟩
  · rintro ⟨hcut, hname, hlast, hread⟩
    dsimp only
    rw [hcut, if_pos ⟨hlast, isName_iff.mp hname⟩, hread, String.ofList_toList]

/-- The parameters are written as a tuple. -/
theorem toList_text (s : Signature) :
    s.text.toList = s.name.toList ++ (Schema.tuple s.parameters).name.toList := by
  simp [text, Schema.name]

/-- **A signature is read from its canonical text**, if its parameters can
be read from theirs. -/
theorem parse_text (hname : IsName s.name) (hparameters : Schema.Readable (.tuple s.parameters)) :
    parse s.text = .ok s := by
  have hopen : ∀ c ∈ s.name.toList, (c != '(') = true := fun c hc => hname.ne_open hc
  have hblank : ∀ c ∈ s.name.toList, isBlank c = false := fun c hc => hname.isBlank_eq hc
  have hread := Schema.ofChars_eq_ok_iff_spells.mpr hparameters.spells_name
  have htext := toList_text s
  rw [Schema.toList_name_tuple] at hread htext
  obtain ⟨c, cs, hcs⟩ := List.exists_cons_of_ne_nil hname.1
  have htrim : trim s.text.toList = s.text.toList := by
    rw [htext, hcs, List.cons_append, ← List.append_assoc]
    exact trim_cons_concat (hblank c (by rw [hcs]; exact List.mem_cons_self)) (by decide)
  refine (parse_eq_ok_iff (htrim.trans htext)).mpr ⟨?_, hname, ?_, ?_⟩
  · rw [List.cons_append, takeWhile_open hopen]
    exact trim_of_forall hblank
  · rw [List.cons_append, dropWhile_open hopen, ← List.cons_append]
    exact List.getLast?_concat
  · rw [List.cons_append, dropWhile_open hopen, ← List.cons_append]
    exact hread

/-- **What a signature is read from**: its name and a list of its
parameters, with blanks around them. -/
theorem exists_of_parse (h : parse text = .ok s) :
    ∃ front back parameters, isEmptyOrBlank front = true ∧ isEmptyOrBlank back = true
      ∧ text.toList = front ++ s.name.toList ++ back ++ '(' :: parameters
      ∧ Schema.Spells ('(' :: parameters) (.tuple s.parameters) := by
  obtain ⟨hname, -, hlast, hread⟩ := (parse_eq_ok_iff rfl).mp h
  obtain ⟨front, back, hfront, hback, htext⟩ := exists_trim text.toList
  obtain ⟨front', back', hfront', hback', hcut⟩ :=
    exists_trim ((trim text.toList).takeWhile (· != '('))
  rw [hname] at hcut
  have hsplit : (trim text.toList).takeWhile (· != '(') ++ (trim text.toList).dropWhile (· != '(')
      = trim text.toList := List.takeWhile_append_dropWhile
  have hhead := List.head?_dropWhile_not (· != '(') (trim text.toList)
  -- behind the name is a parenthesis, for the text has one at its end
  generalize (trim text.toList).dropWhile (· != '(') = list at hlast hread hsplit hhead
  have hne : list ≠ [] := by
    rintro rfl
    cases hlast
  obtain ⟨c, parameters, rfl⟩ := List.exists_cons_of_ne_nil hne
  obtain rfl : c = '(' := by simpa using hhead
  have hspells : Schema.Spells ([] ++ '(' :: parameters ++ back) (.tuple s.parameters) :=
    .blanks rfl hback (Schema.ofChars_eq_ok_iff_spells.mp hread)
  refine ⟨front ++ front', back', parameters ++ back, ?_, hback', ?_, hspells⟩
  · rw [isEmptyOrBlank_append, hfront, hfront', Bool.and_true]
  · rw [htext, ← hsplit, hcut]
    simp

/-! ## Spelling out -/

/-- **The text of a signature spelled out.** The name, up to the first
parenthesis, is left as it is but for the blanks. -/
def spelledOut (cs : List Char) : List Char :=
  unblanked (cs.takeWhile (· != '(')) ++ Schema.spelledOut (cs.dropWhile (· != '('))

/-- **Spelled out, a text is the canonical one.** -/
theorem spelledOut_eq (h : parse text = .ok s) : spelledOut text.toList = s.text.toList := by
  obtain ⟨-, hname, -, -⟩ := (parse_eq_ok_iff rfl).mp h
  obtain ⟨front, back, parameters, hfront, hback, htext, hspells⟩ := exists_of_parse h
  have hopen : ∀ c ∈ front ++ s.name.toList ++ back, (c != '(') = true := by
    refine List.forall_mem_append.mpr ⟨List.forall_mem_append.mpr ⟨?_, ?_⟩, ?_⟩
    · exact fun c hc => ne_open_of_isBlank (List.all_eq_true.mp hfront c hc)
    · exact fun c hc => hname.ne_open hc
    · exact fun c hc => ne_open_of_isBlank (List.all_eq_true.mp hback c hc)
  unfold spelledOut
  rw [htext, takeWhile_open hopen, dropWhile_open hopen, hspells.spelledOut_eq,
    unblanked_between hfront hback, unblanked_of_forall fun c hc => hname.isBlank_eq hc,
    toList_text]

/-! ## What is computed from a signature -/

/-- Parameters without names have the schemas they were made of. -/
theorem schemas_map_unnamed (ss : List Schema) : Param.schemas (ss.map Param.unnamed) = ss := by
  unfold Param.schemas
  rw [List.map_map]
  exact List.map_id ss

/-- A call by signature is one of the function with that signature. -/
theorem encodeCallBySignature_eq (h : parse text = .ok s) (outputs : List Schema)
    (values : List Value) : encodeCallBySignature text values
      = (Function.ofSchemas s.name s.parameters outputs).encodeCall values := by
  unfold encodeCallBySignature Function.encodeCall Function.ofSchemas Function.new
    Function.inputSchemas
  rw [h, schemas_map_unnamed]

/-- The topic of a signature is that of the events with the signature. -/
theorem eventTopic_eq (h : parse text = .ok s) {e : Event} (he : e.signature = s) :
    eventTopic text = .ok e.topic := by
  unfold eventTopic Event.topic
  rw [h, he]

/-- **Signatures are read from their canonical texts, and from nothing but
spellings of these**. So calls are encoded, and topics computed, the same for
every spelling: as they are for the function, or the event, of that name
with parameters of these schemas. -/
theorem parse_canonically :
    (∀ s : Signature, IsName s.name → (∀ t ∈ s.parameters, t.IsValid) → parse s.text = .ok s)
    ∧ ∀ (text : String) (s : Signature), parse text = .ok s →
      IsName s.name ∧ String.ofList (spelledOut text.toList) = s.text
      ∧ (∀ (outputs : List Schema) (values : List Value), encodeCallBySignature text values
          = (Function.ofSchemas s.name s.parameters outputs).encodeCall values)
      ∧ ∀ e : Event, e.name = s.name → e.inputs.map (fun p => p.param.schema) = s.parameters →
          eventTopic text = .ok e.topic := by
  refine ⟨fun s hname hvalid => ?_, fun text s h => ?_⟩
  · exact parse_text hname (.tuple fun t ht => .valid (hvalid t ht))
  · obtain ⟨-, hname, -, -⟩ := (parse_eq_ok_iff rfl).mp h
    refine ⟨hname, ?_, encodeCallBySignature_eq h, fun e hename hinputs => ?_⟩
    · rw [spelledOut_eq h, String.ofList_toList]
    · refine eventTopic_eq h ?_
      unfold Event.signature
      rw [hename, hinputs]

/-- A signature whose name is the short name of a schema. -/
def shortNamed : Signature := ⟨"uint", [.uint 256, .tuple [.array (.int 256)]]⟩

/-- An event with that signature. -/
def shortNamedEvent : Event :=
  ⟨"uint", [⟨⟨"key", .uint 256⟩, true⟩, ⟨⟨"", .tuple [.array (.int 256)]⟩, false⟩], false⟩

/-- In a loosely written text the short names of the schemas are put in
full, and that of the function is left. -/
theorem parse_canonically_shortNamed :
    IsName shortNamed.name ∧ (∀ t ∈ shortNamed.parameters, t.IsValid)
      ∧ parse shortNamed.text = .ok shortNamed
      ∧ parse "\t uint (uint , (int [])\u3000)" = .ok shortNamed
      ∧ String.ofList (spelledOut "\t uint (uint , (int [])\u3000)".toList)
        = "uint(uint256,(int256[]))"
      ∧ encodeCallBySignature "\t uint (uint , (int [])\u3000)"
          [.uint 256 7, .tuple [.array (.int 256) []]]
        = (Function.ofSchemas "uint" shortNamed.parameters []).encodeCall
          [.uint 256 7, .tuple [.array (.int 256) []]]
      ∧ shortNamedEvent.name = "uint"
      ∧ shortNamedEvent.inputs.map (fun p => p.param.schema) = shortNamed.parameters
      ∧ eventTopic "\t uint (uint , (int [])\u3000)" = .ok shortNamedEvent.topic := by
  have hname : IsName shortNamed.name := isName_iff.mpr (by decide +kernel)
  have hvalid : ∀ t ∈ shortNamed.parameters, t.IsValid := by decide
  have hparse : parse "\t uint (uint , (int [])\u3000)" = .ok shortNamed := by decide +kernel
  obtain ⟨-, htext, hcall, htopic⟩ := parse_canonically.2 _ _ hparse
  exact ⟨hname, hvalid, parse_canonically.1 _ hname hvalid, hparse,
    htext.trans (by decide +kernel), hcall [] _, rfl, rfl, htopic shortNamedEvent rfl rfl⟩

end EthCall.Abi.Signature
