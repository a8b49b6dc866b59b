import EthCall.Proofs.Abi.Cut

/-!
# The spellings of a schema

What a text has to look like to spell a schema is said here without the
reader. `Schema.Spells` builds spellings up: the name of a basic schema is
one, suffixes and parentheses go around what is one already, and blanks may
stand around all of them. The reader takes texts apart, from the outside in
and by looking for single characters. It accepts the spellings and no other
text, and reads from each the schema that it spells
(`Schema.ofChars_eq_ok_iff_spells`).

What has to be seen for it is that the reader cuts where the spelling was
put together. The suffix it strips is the outermost, since it is the last
one; and the commas it splits members at are those between members, since
any other comma stands between parentheses, and those of a spelling match
(`Schema.Spells.passed`).
-/

namespace EthCall.Abi.Schema

open Text

/-- **A text that spells a schema.** -/
inductive Spells : List Char → Schema → Prop
  /-- A basic schema is spelled by its name. -/
  | basic {s : Schema} (hbasic : s.isBasic = true) (hvalid : s.IsValid) : Spells s.name.toList s
  /-- The unsigned numbers of a word have a short name. -/
  | uint : Spells "uint".toList (uint 256)
  /-- So do the signed ones. -/
  | int : Spells "int".toList (int 256)
  /-- An array has a suffix behind its element. -/
  | array {cs : List Char} {element : Schema} (helement : Spells cs element) :
    Spells (cs ++ ['[', ']']) (array element)
  /-- A fixed array has one with its size. -/
  | fixedArray {cs : List Char} {element : Schema} {size : Nat} (helement : Spells cs element)
    (hvalid : (fixedArray element size).IsValid) :
    Spells (cs ++ '[' :: Nat.toDigits 10 size ++ [']']) (fixedArray element size)
  /-- Between the parentheses of an empty tuple there may be blanks. -/
  | unit {inner : List Char} (hinner : isEmptyOrBlank inner = true) :
    Spells ('(' :: inner ++ [')']) (tuple [])
  /-- Between those of other tuples there are the members, each with the
  text that spells it, and commas between them. -/
  | tuple {members : List (List Char × Schema)} (hne : members ≠ [])
    (hmembers : ∀ m ∈ members, Spells m.1 m.2) :
    Spells ('(' :: [','].intercalate (members.map Prod.fst) ++ [')'])
      (tuple (members.map Prod.snd))
  /-- Blanks may stand around everything. -/
  | blanks {front cs back : List Char} {s : Schema} (hfront : isEmptyOrBlank front = true)
    (hback : isEmptyOrBlank back = true) (hs : Spells cs s) : Spells (front ++ cs ++ back) s

/-! ## What is read was spelled -/

mutual

/-- **The reader accepts only spellings.** -/
theorem spells_of_ofChars {text : List Char} {s : Schema} (h : ofChars text = .ok s) :
    Spells text s := by
  -- by induction on the length of the text, as what is cut out of it is shorter
  obtain ⟨front, back, hfront, hback, heq⟩ := exists_trim text
  suffices htrim : Spells (trim text) s by
    rw [heq]
    exact htrim.blanks hfront hback
  have htext := length_trim_le text
  cases ofChars_eq_ok_iff.mp h with
  | array hcut hs =>
    have hlen := congrArg List.length hcut
    rw [hcut]
    exact .array (spells_of_ofChars hs)
  | fixedArray hcut hs hvalid =>
    have hlen := congrArg List.length hcut
    rw [hcut]
    exact .fixedArray (spells_of_ofChars hs) hvalid
  | unit hcut hinner =>
    rw [hcut]
    exact .unit hinner
  | tuple hcut hinner hmembers =>
    have hlen := congrArg List.length hcut
    rw [hcut]
    obtain ⟨members, hne, hspelled, rfl, rfl⟩ := exists_spelled_of_membersOfChars hmembers
    exact .tuple hne hspelled
  | basic hs =>
    rcases readScalar_eq_ok_iff.mp hs with ⟨hbasic, hvalid, hname⟩ | ⟨hname, rfl⟩ | ⟨hname, rfl⟩
    · rw [hname]
      exact .basic hbasic hvalid
    · rw [hname]
      exact .uint
    · rw [hname]
      exact .int
termination_by 2 * text.length
decreasing_by
  all_goals
    simp only [List.length_append, List.length_cons, List.length_nil] at hlen
    omega

/-- What it reads as members is spelled between commas. -/
theorem exists_spelled_of_membersOfChars {whole cs : List Char} {ss : List Schema}
    (h : membersOfChars whole cs = .ok ss) :
    ∃ members : List (List Char × Schema), members ≠ [] ∧ (∀ m ∈ members, Spells m.1 m.2)
      ∧ cs = [','].intercalate (members.map Prod.fst) ∧ ss = members.map Prod.snd := by
  cases membersOfChars_eq_ok_iff.mp h with
  | @last s hscan hcs hs =>
    refine ⟨[(cs, s)], List.cons_ne_nil _ _, ?_, List.intercalate_singleton.symm, rfl⟩
    exact List.forall_mem_singleton.mpr (spells_of_ofChars hs)
  | @more member rest s ss hscan hmember hs hss =>
    have hcut : cs = member ++ ',' :: rest := eq_of_scanMember_more hscan
    have hlen := congrArg List.length hcut
    obtain ⟨members, hne, hspelled, rfl, rfl⟩ := exists_spelled_of_membersOfChars hss
    refine ⟨(member, s) :: members, List.cons_ne_nil _ _, ?_, ?_, rfl⟩
    · exact List.forall_mem_cons.mpr ⟨spells_of_ofChars hs, hspelled⟩
    · rw [hcut, List.map_cons, List.intercalate_cons_of_ne_nil (by simpa using hne)]
      simp
termination_by 2 * cs.length + 1
decreasing_by
  · omega
  · simp only [List.length_append, List.length_cons] at hlen
    omega
  · simp only [List.length_append, List.length_cons] at hlen
    omega

end

/-! ## What was spelled is read -/

/-- Blanks are passed by the scan for a comma. -/
theorem passed_of_isEmptyOrBlank {cs : List Char} (h : isEmptyOrBlank cs = true) :
    Passed 0 cs := by
  refine passed_of_forall fun c hc => ?_
  have hblank := List.all_eq_true.mp h c hc
  refine ⟨?_, ?_, ?_⟩ <;> rintro rfl <;> revert hblank <;> decide

/-- So are letters and digits. -/
theorem passed_of_isAlphanum {cs : List Char} (h : ∀ c ∈ cs, c.isAlphanum = true) :
    Passed 0 cs := by
  refine passed_of_forall fun c hc => ?_
  have halphanum := h c hc
  refine ⟨?_, ?_, ?_⟩ <;> rintro rfl <;> revert halphanum <;> decide

/-- Members are passed between parentheses, with the commas between
them. -/
theorem passed_intercalate {texts : List (List Char)} (h : ∀ cs ∈ texts, Passed 0 cs) :
    Passed 1 ([','].intercalate texts) := by
  induction texts with
  | nil => exact passed_nil 1
  | cons cs texts ih =>
    obtain ⟨hcs, htexts⟩ := List.forall_mem_cons.mp h
    have hcs := hcs.mono (Nat.zero_le 1)
    cases texts with
    | nil => rwa [List.intercalate_singleton]
    | cons ds texts =>
      rw [List.intercalate_cons_cons]
      exact (hcs.append passed_comma).append (ih htexts)

/-- A suffix is passed, brackets and size. -/
theorem Passed.suffixed {cs ds : List Char} (hcs : Passed 0 cs) (hds : Passed 0 ds) :
    Passed 0 (cs ++ '[' :: ds ++ [']']) := by
  have hopen : Passed 0 ['['] := passed_singleton (by decide) (by decide) (by decide)
  have hclose : Passed 0 [']'] := passed_singleton (by decide) (by decide) (by decide)
  exact (hcs.append (hopen.append hds)).append hclose

/-- **A spelling is passed by the scan for a comma.** -/
theorem Spells.passed {cs : List Char} {s : Schema} (h : Spells cs s) : Passed 0 cs := by
  induction h with
  | basic hbasic _ => exact passed_of_isAlphanum fun c hc => isAlphanum_of_mem_name hbasic hc
  | uint => exact passed_of_isAlphanum (by simp)
  | int => exact passed_of_isAlphanum (by simp)
  | array _ ih => simpa using ih.suffixed (passed_nil 0)
  | fixedArray _ _ ih =>
    exact ih.suffixed (passed_of_isAlphanum fun c hc => isAlphanum_of_mem_toDigits hc)
  | unit hinner => exact ((passed_of_isEmptyOrBlank hinner).mono (Nat.zero_le 1)).parenthesized
  | tuple _ _ ih =>
    refine (passed_intercalate fun cs hcs => ?_).parenthesized
    obtain ⟨m, hm, rfl⟩ := List.mem_map.mp hcs
    exact ih m hm
  | blanks hfront hback _ ih =>
    exact ((passed_of_isEmptyOrBlank hfront).append ih).append (passed_of_isEmptyOrBlank hback)

/-- Members are read from between commas. -/
theorem membersOfChars_intercalate (whole : List Char) {members : List (List Char × Schema)}
    (hne : members ≠ []) (hpassed : ∀ m ∈ members, Passed 0 m.1)
    (hread : ∀ m ∈ members, ofChars m.1 = .ok m.2) :
    membersOfChars whole ([','].intercalate (members.map Prod.fst))
      = .ok (members.map Prod.snd) := by
  induction members with
  | nil => exact absurd rfl hne
  | cons m members ih =>
    obtain ⟨hm, hpassed⟩ := List.forall_mem_cons.mp hpassed
    obtain ⟨hs, hread⟩ := List.forall_mem_cons.mp hread
    refine membersOfChars_eq_ok_iff.mpr ?_
    cases members with
    | nil =>
      rw [List.map_cons, List.map_nil, List.intercalate_singleton]
      exact .last hm.scanMember_eq (isEmptyOrBlank_of_ofChars hs) hs
    | cons m' members =>
      have hss := ih (List.cons_ne_nil _ _) hpassed hread
      rw [List.map_cons, List.intercalate_cons_of_ne_nil (by simp), List.append_assoc,
        List.singleton_append, List.map_cons]
      exact .more hm.scanMember_append_eq (isEmptyOrBlank_of_ofChars hs) hs hss

/-- There are no members in blanks. -/
theorem isEmptyOrBlank_intercalate {texts : List (List Char)} (hne : texts ≠ [])
    (h : ∀ cs ∈ texts, isEmptyOrBlank cs = false) :
    isEmptyOrBlank ([','].intercalate texts) = false := by
  cases texts with
  | nil => exact absurd rfl hne
  | cons cs texts =>
    have hcs := h cs List.mem_cons_self
    cases texts with
    | nil => rwa [List.intercalate_singleton]
    | cons ds texts =>
      rw [List.intercalate_cons_cons, isEmptyOrBlank_append, isEmptyOrBlank_append, hcs,
        Bool.false_and, Bool.false_and]

/-- A suffix is not trimmed. -/
theorem trim_suffixed (cs ds : List Char) :
    trim (cs ++ '[' :: ds ++ [']']) = trimStart cs ++ '[' :: ds ++ [']'] :=
  trim_append_cons_concat (by decide) (by decide)

/-- **The reader accepts every spelling**, and reads from it what it
spells. -/
theorem Spells.ofChars_eq {cs : List Char} {s : Schema} (h : Spells cs s) :
    ofChars cs = .ok s := by
  induction h with
  | @basic s hbasic hvalid =>
    have htrim : trim s.name.toList = s.name.toList := trim_of_forall fun c hc =>
      isBlank_of_isAlphanum (isAlphanum_of_mem_name hbasic hc)
    refine ofChars_eq_ok_iff.mpr (.basic ?_)
    rw [htrim]
    exact readScalar_name hbasic hvalid
  | uint => decide +kernel
  | int => decide +kernel
  | @array cs element _ ih =>
    -- blanks in front of the element are trimmed with the whole text, those behind it are not
    refine ofChars_eq_ok_iff.mpr (.array ?_ (ofChars_eq_ok_of_trim_eq (trim_trimStart cs) ih))
    simpa using trim_suffixed cs []
  | @fixedArray cs element size _ hvalid ih =>
    have hread := ofChars_eq_ok_of_trim_eq (trim_trimStart cs) ih
    exact ofChars_eq_ok_iff.mpr (.fixedArray (trim_suffixed cs _) hread hvalid)
  | unit hinner =>
    exact ofChars_eq_ok_iff.mpr (.unit (trim_cons_concat (by decide) (by decide)) hinner)
  | @tuple members hne hmembers ih =>
    have hread := membersOfChars_intercalate ([','].intercalate (members.map Prod.fst)) hne
      (fun m hm => (hmembers m hm).passed) ih
    refine ofChars_eq_ok_iff.mpr (.tuple (trim_cons_concat (by decide) (by decide)) ?_ hread)
    refine isEmptyOrBlank_intercalate (by simpa using hne) fun cs hcs => ?_
    obtain ⟨m, hm, rfl⟩ := List.mem_map.mp hcs
    exact isEmptyOrBlank_of_ofChars (ih m hm)
  | blanks hfront hback _ ih => exact ofChars_eq_ok_of_trim_eq (trim_append hfront hback) ih

/-- **The reader accepts the spellings, and nothing else.** -/
theorem ofChars_eq_ok_iff_spells {text : List Char} {s : Schema} :
    ofChars text = .ok s ↔ Spells text s :=
  ⟨spells_of_ofChars, Spells.ofChars_eq⟩

end EthCall.Abi.Schema
