import EthCall.Proofs.Abi.Spelling

/-!
# The name among the spellings

A schema has many spellings, and its name is one of them. So what is read
from any text is read again from its name (`Schema.parse_name`), and two
schemas never share a name.

The name is also what all the spellings have in common. They differ from it
in blanks and in the short names `uint` and `int` only: without the blanks,
and with the short names in full, each of them is the name
(`Schema.parse_sound`). Nothing can therefore be written for a schema that
would be hashed to another selector than its name is.

What is read is valid, but for the tuples without members that may be in it
(`Schema.Readable`).
-/

namespace EthCall.Abi.Schema

open Text

variable {cs ds token : List Char} {c : Char} {s t element : Schema} {members : List Schema}
  {size : Nat}

/-! ## The characters of a name -/

theorem names_eq_map (ss : List Schema) : names ss = ss.map name := by
  induction ss with
  | nil => rfl
  | cons s ss ih => rw [names, ih, List.map_cons]

theorem toList_name_array : (array element).name.toList = element.name.toList ++ ['[', ']'] := by
  rw [name, String.toList_append]
  rfl

theorem toList_name_fixedArray : (fixedArray element size).name.toList
    = element.name.toList ++ '[' :: Nat.toDigits 10 size ++ [']'] := by
  simp [name, Nat.toList_repr]

theorem toList_name_tuple : (tuple members).name.toList
    = '(' :: [','].intercalate (members.map fun s => s.name.toList) ++ [')'] := by
  simp [name, names_eq_map, String.toList_intercalate, Function.comp_def]

/-! ## What can be read -/

/-- **A schema as it is read from a text.** It may have tuples without
members in it, though not as the elements of a fixed array, which are
checked as soon as they are read. -/
inductive Readable : Schema → Prop
  /-- All that is valid can be read. -/
  | valid {s : Schema} (hs : s.IsValid) : Readable s
  /-- The elements of an array are not checked. -/
  | array {element : Schema} (helement : Readable element) : Readable (array element)
  /-- Neither are the members of a tuple, or that there are any. -/
  | tuple {members : List Schema} (hmembers : ∀ s ∈ members, Readable s) : Readable (tuple members)

/-- What is spelled can be read. -/
theorem Spells.readable (h : Spells cs s) : Readable s := by
  induction h with
  | basic _ hvalid => exact .valid hvalid
  | uint => exact .valid (by decide)
  | int => exact .valid (by decide)
  | array _ ih => exact .array ih
  | fixedArray _ hvalid => exact .valid hvalid
  | unit => exact .tuple (List.forall_mem_nil _)
  | tuple _ _ ih =>
    refine .tuple fun s hs => ?_
    obtain ⟨m, hm, rfl⟩ := List.mem_map.mp hs
    exact ih m hm
  | blanks _ _ _ ih => exact ih

/-- What is a scalar is not put together from others. -/
theorem isBasic_of_isScalar (h : s.isScalar = true) : s.isBasic = true := by
  cases s <;> first | rfl | cases h

/-- The names of its members spell a tuple. -/
theorem spells_name_tuple (h : ∀ s ∈ members, Spells s.name.toList s) :
    Spells (tuple members).name.toList (tuple members) := by
  rw [toList_name_tuple]
  cases members with
  | nil => exact .unit rfl
  | cons s ss =>
    have hspelled : ∀ m ∈ (s :: ss).map (fun t => (t.name.toList, t)), Spells m.1 m.2 := by
      intro m hm
      obtain ⟨t, ht, rfl⟩ := List.mem_map.mp hm
      exact h t ht
    simpa [Function.comp_def] using Spells.tuple (List.cons_ne_nil _ _) hspelled

/-- The name of a valid schema spells it. -/
theorem spells_name_of_isValid (hs : s.IsValid) : Spells s.name.toList s := by
  induction s using ind with
  | scalar s hscalar => exact .basic (isBasic_of_isScalar hscalar) hs
  | bytes => exact .basic rfl hs
  | string => exact .basic rfl hs
  | array element ih =>
    rw [toList_name_array]
    exact .array (ih (isValid_array_iff.mp hs))
  | fixedArray element size ih =>
    rw [toList_name_fixedArray]
    exact .fixedArray (ih (isValid_fixedArray_iff.mp hs).2.2) hs
  | tuple members ih =>
    exact spells_name_tuple fun s hmem => ih s hmem ((isValid_tuple_iff.mp hs).2 s hmem)

/-- **What can be read is spelled by its name.** -/
theorem Readable.spells_name (h : Readable s) : Spells s.name.toList s := by
  induction h with
  | valid hs => exact spells_name_of_isValid hs
  | array _ ih =>
    rw [toList_name_array]
    exact .array ih
  | tuple _ ih => exact spells_name_tuple ih

theorem Readable.parse_name_eq (h : Readable s) : parse s.name = .ok s :=
  ofChars_eq_ok_iff_spells.mpr h.spells_name

/-- What can be read is read from some text. -/
theorem readable_iff_exists_parse : Readable s ↔ ∃ text, parse text = .ok s :=
  ⟨fun h => ⟨s.name, h.parse_name_eq⟩, fun ⟨_, h⟩ => (ofChars_eq_ok_iff_spells.mp h).readable⟩

/-- **Names are read back**: those of valid schemas, and those of whatever
was read from any text before. Hence valid schemas of one name are the
same. -/
theorem parse_name :
    (∀ s : Schema, s.IsValid → parse s.name = .ok s)
    ∧ (∀ (text : String) (s : Schema), parse text = .ok s → parse s.name = .ok s)
    ∧ ∀ s t : Schema, s.IsValid → t.IsValid → s.name = t.name → s = t := by
  refine ⟨fun s hs => (Readable.valid hs).parse_name_eq, fun text s h => ?_,
    fun s t hs ht hname => ?_⟩
  · exact (readable_iff_exists_parse.mpr ⟨text, h⟩).parse_name_eq
  · have hread : parse s.name = .ok s := (Readable.valid hs).parse_name_eq
    rw [hname, (Readable.valid ht).parse_name_eq] at hread
    exact (Except.ok.inj hread).symm

/-- A schema whose name has brackets and commas within brackets. -/
def suffixed : Schema :=
  array (fixedArray (tuple [array (tuple [fixedArray (uint 8) 2, bytes]), fixedArray string 3]) 4)

/-- Suffixes within a name are not taken for those at its end, and the order
of suffixes is kept. An array of empty tuples, which is not valid, is read
from its name all the same. -/
theorem parse_name_suffixed :
    suffixed.name = "((uint8[2],bytes)[],string[3])[4][]" ∧ suffixed.IsValid
      ∧ parse suffixed.name = .ok suffixed
      ∧ parse "( )[]" = .ok (array (tuple [])) ∧ ¬ (array (tuple [])).IsValid
      ∧ parse (array (tuple [])).name = .ok (array (tuple []))
      ∧ (array (fixedArray bool 2)).IsValid ∧ (fixedArray (array bool) 2).IsValid
      ∧ (array (fixedArray bool 2)).name ≠ (fixedArray (array bool) 2).name := by
  have hvalid : suffixed.IsValid := by decide
  have hempty : parse "( )[]" = .ok (array (tuple [])) := by decide +kernel
  have hinner : (array (fixedArray bool 2)).IsValid := by decide
  have houter : (fixedArray (array bool) 2).IsValid := by decide
  refine ⟨by decide +kernel, hvalid, parse_name.1 _ hvalid, hempty, by decide,
    parse_name.2.1 _ _ hempty, hinner, houter, fun hname => ?_⟩
  exact absurd (parse_name.2.2 _ _ hinner houter hname) (by decide)

/-! ## Short names in full -/

/-- A word of a spelling, with the short names in full. -/
def fullToken (token : List Char) : List Char :=
  if token = "uint".toList then "uint256".toList
  else if token = "int".toList then "int256".toList
  else token

/-- **A text with the short names in it in full.** A word ends where
something other than a letter or digit follows, so that the `uint` of
`uint8` is none; `token` holds what was passed of the current one. -/
def expanded : (token : List Char) → List Char → List Char
  | token, [] => fullToken token
  | token, c :: cs =>
    if c.isAlphanum then expanded (token ++ [c]) cs else fullToken token ++ c :: expanded [] cs

/-- One word is put in full as a whole. -/
theorem expanded_of_forall (h : ∀ c ∈ cs, c.isAlphanum = true) :
    expanded token cs = fullToken (token ++ cs) := by
  induction cs generalizing token with
  | nil => rw [expanded, List.append_nil]
  | cons c cs ih =>
    obtain ⟨hc, hcs⟩ := List.forall_mem_cons.mp h
    rw [expanded, if_pos hc, ih hcs, List.append_assoc, List.singleton_append]

/-- What stands before and behind a mark is put in full by itself. -/
theorem expanded_append_cons (hc : c.isAlphanum = false) :
    expanded token (cs ++ c :: ds) = expanded token cs ++ c :: expanded [] ds := by
  induction cs generalizing token with
  | nil =>
    rw [List.nil_append, expanded, expanded, if_neg (by rw [hc]; decide)]
  | cons d cs ih =>
    rw [List.cons_append, expanded, expanded]
    split
    case isTrue => exact ih
    case isFalse => rw [ih, List.append_assoc, List.cons_append]

/-- **The text spelled out**: without blanks, and in full. -/
def spelledOut (cs : List Char) : List Char :=
  expanded [] (unblanked cs)

/-- A word is spelled out as a whole. -/
theorem spelledOut_of_forall (h : ∀ c ∈ cs, c.isAlphanum = true) :
    spelledOut cs = fullToken cs := by
  unfold spelledOut
  rw [unblanked_of_forall fun c hc => isBlank_of_isAlphanum (h c hc), expanded_of_forall h,
    List.nil_append]

/-- What stands before and behind a mark is spelled out by itself. -/
theorem spelledOut_append_cons (hblank : isBlank c = false) (hc : c.isAlphanum = false) :
    spelledOut (cs ++ c :: ds) = spelledOut cs ++ c :: spelledOut ds := by
  unfold spelledOut
  rw [unblanked_append, unblanked_cons hblank, expanded_append_cons hc]

/-- Blanks are not spelled out. -/
theorem spelledOut_of_isEmptyOrBlank (h : isEmptyOrBlank cs = true) : spelledOut cs = [] := by
  unfold spelledOut
  rw [unblanked_of_isEmptyOrBlank h]
  rfl

/-- Parentheses stay around what is spelled out. -/
theorem spelledOut_parenthesized :
    spelledOut ('(' :: cs ++ [')']) = '(' :: spelledOut cs ++ [')'] := by
  have hclose : spelledOut (cs ++ [')']) = spelledOut cs ++ [')'] :=
    spelledOut_append_cons (by decide) (by decide)
  have hopen : spelledOut ([] ++ '(' :: (cs ++ [')'])) = [] ++ '(' :: spelledOut (cs ++ [')']) :=
    spelledOut_append_cons (by decide) (by decide)
  rwa [hclose] at hopen

/-- So do brackets. -/
theorem spelledOut_suffixed :
    spelledOut (cs ++ '[' :: ds ++ [']']) = spelledOut cs ++ '[' :: spelledOut ds ++ [']'] := by
  have hclose : spelledOut (ds ++ [']']) = spelledOut ds ++ [']'] :=
    spelledOut_append_cons (by decide) (by decide)
  rw [List.append_assoc, List.cons_append, spelledOut_append_cons (by decide) (by decide), hclose,
    ← List.cons_append, List.append_assoc]

/-- The names of basic schemas are in full. -/
theorem spelledOut_name (hbasic : s.isBasic = true) :
    spelledOut s.name.toList = s.name.toList := by
  have hne (n : Nat) : Nat.toDigits 10 n ≠ [] := Nat.toDigits_ne_nil
  rw [spelledOut_of_forall fun c hc => isAlphanum_of_mem_name hbasic hc]
  cases s with
  | uint | int | fixedBytes => simp [fullToken, name, Nat.toList_repr, hne]
  | address | bool | bytes | string => rfl
  | array | fixedArray | tuple => cases hbasic

/-- Digits are in full. -/
theorem spelledOut_toDigits (n : Nat) : spelledOut (Nat.toDigits 10 n) = Nat.toDigits 10 n := by
  have hdigits : ∀ c ∈ Nat.toDigits 10 n, c.isDigit = true := fun c hc =>
    Nat.isDigit_of_mem_toDigits (by decide) (by decide) hc
  rw [spelledOut_of_forall fun c hc => isAlphanum_of_mem_toDigits hc]
  unfold fullToken
  split_ifs with huint hint
  case pos =>
    rw [huint] at hdigits
    exact absurd (hdigits 'u' (by simp)) (by decide)
  case pos =>
    rw [hint] at hdigits
    exact absurd (hdigits 'i' (by simp)) (by decide)
  case neg => rfl

/-- Members are spelled out between the commas. -/
theorem spelledOut_intercalate {members : List (List Char × Schema)}
    (h : ∀ m ∈ members, spelledOut m.1 = m.2.name.toList) :
    spelledOut ([','].intercalate (members.map Prod.fst))
      = [','].intercalate (members.map fun m => m.2.name.toList) := by
  induction members with
  | nil => rfl
  | cons m members ih =>
    obtain ⟨hm, hmembers⟩ := List.forall_mem_cons.mp h
    cases members with
    | nil => simpa using hm
    | cons m' members =>
      have hcomma (ds : List Char) : spelledOut (m.1 ++ ',' :: ds) = spelledOut m.1
          ++ ',' :: spelledOut ds := spelledOut_append_cons (by decide) (by decide)
      have hrest := ih hmembers
      simp only [List.map_cons, List.intercalate_cons_cons, List.append_assoc,
        List.singleton_append] at hrest ⊢
      rw [hcomma, hm, hrest]

/-- **Spelled out, a spelling is the name.** -/
theorem Spells.spelledOut_eq (h : Spells cs s) : spelledOut cs = s.name.toList := by
  induction h with
  | basic hbasic _ => exact spelledOut_name hbasic
  | uint => decide +kernel
  | int => decide +kernel
  | @array cs element _ ih =>
    have hsuffix : spelledOut (cs ++ '[' :: [] ++ [']']) = spelledOut cs ++ '[' :: [] ++ [']'] :=
      spelledOut_suffixed
    rw [toList_name_array, ← ih]
    simpa using hsuffix
  | fixedArray _ _ ih =>
    rw [toList_name_fixedArray, spelledOut_suffixed, spelledOut_toDigits, ih]
  | unit hinner =>
    rw [spelledOut_parenthesized, spelledOut_of_isEmptyOrBlank hinner]
    rfl
  | @tuple members _ _ ih =>
    rw [toList_name_tuple, spelledOut_parenthesized, spelledOut_intercalate ih, List.map_map]
    rfl
  | blanks hfront hback _ ih =>
    rw [← ih]
    unfold spelledOut
    rw [unblanked_between hfront hback]

/-! ## Parts -/

/-- **A schema within another**, or the other itself. -/
inductive Within (s : Schema) : Schema → Prop
  /-- The schema itself. -/
  | self : Within s s
  /-- What an array has as its element. -/
  | element {t : Schema} (h : Within s t) : Within s (array t)
  /-- What a fixed array has as its element. -/
  | item {t : Schema} {size : Nat} (h : Within s t) : Within s (fixedArray t size)
  /-- What a tuple has as a member. -/
  | member {t : Schema} {members : List Schema} (hmem : t ∈ members) (h : Within s t) :
    Within s (tuple members)

/-- The parts of what can be read can be read. -/
theorem Within.readable (h : s.Within t) (ht : Readable t) : Readable s := by
  induction h with
  | self => exact ht
  | element _ ih =>
    cases ht with
    | valid ht => exact ih (.valid (isValid_array_iff.mp ht))
    | array ht => exact ih ht
  | item _ ih =>
    cases ht with
    | valid ht => exact ih (.valid (isValid_fixedArray_iff.mp ht).2.2)
  | member hmem _ ih =>
    cases ht with
    | valid ht => exact ih (.valid ((isValid_tuple_iff.mp ht).2 _ hmem))
    | tuple hmembers => exact ih (hmembers _ hmem)

/-- The first defect of several schemas is one of a schema among them. -/
theorem exists_mem_of_defectIn? {ss : List Schema} {e : SchemaError}
    (h : defectIn? ss = some e) : ∃ s ∈ ss, s.defect? = some e := by
  induction ss with
  | nil => cases h
  | cons s ss ih =>
    rw [defectIn?] at h
    split at h
    case h_1 e' hs =>
      cases h
      exact ⟨s, List.mem_cons_self, hs⟩
    case h_2 =>
      obtain ⟨t, ht, hdefect⟩ := ih h
      exact ⟨t, List.mem_cons_of_mem s ht, hdefect⟩

/-- **The one defect of what can be read** is a tuple without members in
it. -/
theorem Readable.defect?_eq (h : Readable t) {e : SchemaError} (he : t.defect? = some e) :
    e = .emptyTuple ∧ (Schema.tuple []).Within t := by
  induction h with
  | valid ht =>
    rw [ht] at he
    cases he
  | array _ ih =>
    obtain ⟨rfl, hwithin⟩ := ih he
    exact ⟨rfl, hwithin.element⟩
  | @tuple members _ ih =>
    cases members with
    | nil =>
      cases he
      exact ⟨rfl, .self⟩
    | cons s ss =>
      obtain ⟨t, hmem, ht⟩ := exists_mem_of_defectIn? he
      obtain ⟨rfl, hwithin⟩ := ih t hmem ht
      exact ⟨rfl, .member hmem hwithin⟩

/-- **Nothing is read but a spelling** of what is read: without its blanks,
and with the short names in full, the text is the name. The widths and sizes
in what is read are those of the format, so that it is refused for a tuple
without members or not at all. -/
theorem parse_sound {text : String} (h : parse text = .ok t) :
    String.ofList (spelledOut text.toList) = t.name
      ∧ (∀ bits, (uint bits).Within t ∨ (int bits).Within t →
          bits ≠ 0 ∧ bits ≤ 256 ∧ bits % 8 = 0)
      ∧ (∀ size, (fixedBytes size).Within t → size ≠ 0 ∧ size ≤ 32)
      ∧ (∀ element size, (fixedArray element size).Within t → size ≠ 0 ∧ size ≤ maxSize)
      ∧ ∀ e, t.defect? = some e → e = .emptyTuple ∧ (Schema.tuple []).Within t := by
  have hread : Readable t := readable_iff_exists_parse.mpr ⟨text, h⟩
  refine ⟨?_, fun bits hbits => ?_, fun size hsize => ?_, fun element size hsize => ?_,
    fun e he => hread.defect?_eq he⟩
  · rw [(ofChars_eq_ok_iff_spells.mp h).spelledOut_eq, String.ofList_toList]
  · rcases hbits with hbits | hbits
    · cases hbits.readable hread with
      | valid hvalid => exact isValid_uint_iff.mp hvalid
    · cases hbits.readable hread with
      | valid hvalid => exact isValid_int_iff.mp hvalid
  · cases hsize.readable hread with
    | valid hvalid => exact isValid_fixedBytes_iff.mp hvalid
  · cases hsize.readable hread with
    | valid hvalid =>
      obtain ⟨hpos, hmax, -⟩ := isValid_fixedArray_iff.mp hvalid
      exact ⟨hpos, hmax⟩

/-- A schema with a tuple without members in it. -/
def halfEmpty : Schema :=
  tuple [fixedArray (uint 256) 2, int 256, fixedBytes 4, array (tuple [])]

/-- Blanks of several kinds are not in the name, and of the defects only the
empty tuple is left to find. -/
theorem parse_sound_halfEmpty :
    parse "\u2003( uint [2] ,\tint, bytes4 ,( )[])\n" = .ok halfEmpty
      ∧ String.ofList (spelledOut "\u2003( uint [2] ,\tint, bytes4 ,( )[])\n".toList)
        = "(uint256[2],int256,bytes4,()[])"
      ∧ (int 256).Within halfEmpty ∧ (256 ≠ 0 ∧ 256 ≤ 256 ∧ 256 % 8 = 0)
      ∧ (fixedBytes 4).Within halfEmpty ∧ (4 ≠ 0 ∧ 4 ≤ 32)
      ∧ (fixedArray (uint 256) 2).Within halfEmpty ∧ (2 ≠ 0 ∧ 2 ≤ maxSize)
      ∧ halfEmpty.defect? = some .emptyTuple ∧ (Schema.tuple []).Within halfEmpty := by
  have hparse : parse "\u2003( uint [2] ,\tint, bytes4 ,( )[])\n" = .ok halfEmpty := by
    decide +kernel
  have hint : (int 256).Within halfEmpty := .member (t := int 256) (by simp) .self
  have hbytes : (fixedBytes 4).Within halfEmpty := .member (t := fixedBytes 4) (by simp) .self
  have harray : (fixedArray (uint 256) 2).Within halfEmpty :=
    .member (t := fixedArray (uint 256) 2) (by simp) .self
  have hdefect : halfEmpty.defect? = some .emptyTuple := by decide
  obtain ⟨hname, hinteger, hfixedBytes, hfixedArray, hempty⟩ := parse_sound hparse
  exact ⟨hparse, hname.trans (by decide +kernel), hint, hinteger 256 (.inr hint), hbytes,
    hfixedBytes 4 hbytes, harray, hfixedArray (uint 256) 2 harray, hdefect,
    (hempty .emptyTuple hdefect).2⟩

end EthCall.Abi.Schema
