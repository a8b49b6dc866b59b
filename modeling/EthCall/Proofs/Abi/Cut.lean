import EthCall.Abi.Schema.Parser
import EthCall.Proofs.Abi.Schema
import EthCall.Proofs.Text

/-!
# One step of reading a name

Reading a name cuts the text at one place and goes on with what it has cut
out. Each cut is described here by the texts it applies to, and from these
the one step that `Schema.ofChars` takes (`Schema.ofChars_eq_ok_iff`), as
well as that of `Schema.membersOfChars`. Nothing further on unfolds the
readers.

The members of a tuple are found by a scan that counts parentheses. A text
is *passed* when the scan goes over it and finds no comma in it that would
end a member (`Schema.Passed`). Names are like that, which is why a comma
within a member is never taken for one between members.
-/

namespace EthCall.Abi.Schema

open Text

variable {cs ds element digits inner rest : List Char} {c : Char} {s t : Schema}

/-! ## Array suffixes -/

/-- The suffix without a size. -/
theorem arraySuffix_eq_open_iff :
    arraySuffix cs = .open_ element ↔ cs = element ++ ['[', ']'] := by
  constructor
  · intro h
    unfold arraySuffix at h
    split at h
    case h_1 r hr =>
      cases h
      rw [← List.reverse_reverse cs, hr]
      simp
    case h_2 => split at h <;> cases h
    case h_3 => cases h
  · rintro rfl
    simp [arraySuffix]

/-- A suffix with a size is one that was cut at the last bracket. -/
theorem eq_of_arraySuffix_sized (h : arraySuffix cs = .sized element digits) :
    cs = element ++ '[' :: digits ++ [']'] := by
  unfold arraySuffix at h
  split at h
  case h_1 => cases h
  case h_3 => cases h
  case h_2 r _ hr =>
    split at h
    case h_2 => cases h
    case h_1 c e he =>
      cases h
      have hc : c = '[' := by
        have hhead := List.head?_dropWhile_not (· != '[') r
        rw [he] at hhead
        simpa using hhead
      have hsplit : r.takeWhile (· != '[') ++ r.dropWhile (· != '[') = r :=
        List.takeWhile_append_dropWhile
      rw [← List.reverse_reverse cs, hr]
      conv_lhs => rw [← hsplit, he, hc]
      simp

/-- A size with brackets around it is a suffix. -/
theorem arraySuffix_sized (hne : digits ≠ []) (hdigits : '[' ∉ digits) :
    arraySuffix (element ++ '[' :: digits ++ [']']) = .sized element digits := by
  have hreverse : (element ++ '[' :: digits ++ [']']).reverse
      = ']' :: (digits.reverse ++ '[' :: element.reverse) := by simp
  have hbefore : ∀ c ∈ digits.reverse, (c != '[') = true := fun c hc =>
    bne_iff_ne.mpr fun heq => hdigits (heq ▸ List.mem_reverse.mp hc)
  unfold arraySuffix
  rw [hreverse]
  split
  case h_1 r hr =>
    -- the size is not empty, so the character before the last is one of it
    obtain ⟨c, cs, hcs⟩ := List.exists_cons_of_ne_nil (List.reverse_eq_nil_iff.not.mpr hne)
    rw [hcs] at hr hbefore
    have hc : c = '[' := (List.cons.inj (List.cons.inj hr).2).1
    exact absurd hc (bne_iff_ne.mp (hbefore c List.mem_cons_self))
  case h_2 r _ hr =>
    obtain rfl := (List.cons.inj hr).2
    rw [List.dropWhile_append_of_pos hbefore, List.takeWhile_append_of_pos hbefore]
    simp
  case h_3 hother => exact absurd rfl (hother _)

/-- Without a closing bracket at the end there is no suffix. -/
theorem arraySuffix_of_getLast? (h : cs.getLast? ≠ some ']') : arraySuffix cs = .absent := by
  rw [← List.head?_reverse] at h
  unfold arraySuffix
  split
  case h_1 hr => exact absurd (by rw [hr]; rfl) h
  case h_2 hr => exact absurd (by rw [hr]; rfl) h
  case h_3 => rfl

/-! ## Parentheses -/

/-- What stands between a pair of parentheses. -/
theorem parenthesized?_eq_some_iff :
    parenthesized? cs = some inner ↔ cs = '(' :: inner ++ [')'] := by
  constructor
  · intro h
    unfold parenthesized? at h
    split at h
    case h_2 => cases h
    case h_1 r =>
      split at h
      case h_2 => cases h
      case h_1 hr =>
        cases h
        rw [← List.reverse_reverse r, hr]
        simp
  · rintro rfl
    simp [parenthesized?]

/-! ## Scalars -/

/-- Whether the schema is not put together from others. -/
def isBasic : Schema → Bool
  | array _ => false
  | fixedArray _ _ => false
  | tuple _ => false
  | _ => true

/-- The names of basic schemas are made of letters and digits. -/
theorem isAlphanum_of_mem_name (hs : s.isBasic = true) (hc : c ∈ s.name.toList) :
    c.isAlphanum = true := by
  have hdigits (n : Nat) : (Nat.toDigits 10 n).all Char.isAlphanum = true :=
    List.all_eq_true.mpr fun c hc => isAlphanum_of_mem_toDigits hc
  suffices hall : s.name.toList.all Char.isAlphanum = true from List.all_eq_true.mp hall c hc
  cases s with
  | uint | int | fixedBytes =>
    rw [name, String.toList_append, Nat.toList_repr, List.all_append, hdigits, Bool.and_true]
    decide
  | address | bool | bytes | string =>
    rw [name]
    decide
  | array | fixedArray | tuple => cases hs

/-- The name of a basic schema has a first letter. -/
theorem name_ne_nil_of_isBasic (hs : s.isBasic = true) : s.name.toList ≠ [] := by
  cases s with
  | uint | int | fixedBytes =>
    rw [name, String.toList_append]
    exact List.append_ne_nil_of_left_ne_nil (by decide) _
  | address | bool | bytes | string =>
    rw [name]
    decide
  | array | fixedArray | tuple => cases hs

/-- A check that was passed. -/
theorem checked_eq_ok_iff : checked s = .ok t ↔ t = s ∧ s.IsValid := by
  unfold checked IsValid
  cases s.defect? <;> simp [eq_comm]

/-- A width is read when it gives a valid schema. -/
theorem readWidth_eq_ok_iff {kind : String} {family : Nat → Schema} :
    readWidth kind family digits = .ok s
      ↔ ∃ n, n ≤ maxSize ∧ digits = Nat.toDigits 10 n ∧ s = family n ∧ (family n).IsValid := by
  unfold readWidth
  constructor
  · intro h
    split at h
    case h_2 => cases h
    case h_1 n hn =>
      obtain ⟨hmax, hdigits⟩ := size?_eq_some_iff.mp hn
      exact ⟨n, hmax, hdigits, checked_eq_ok_iff.mp h⟩
  · rintro ⟨n, hmax, hdigits, hs⟩
    rw [size?_eq_some_iff.mpr ⟨hmax, hdigits⟩]
    exact checked_eq_ok_iff.mpr hs

/-- A text of a family is read by the reader of widths. -/
theorem eq_name_of_readWidth {kind : String} {family : Nat → Schema}
    (hname : ∀ n, (family n).name = kind ++ Nat.repr n) (hbasic : ∀ n, (family n).isBasic = true)
    (hcut : kind.toList.isPrefixOf? cs = some digits) (h : readWidth kind family digits = .ok s) :
    s.isBasic = true ∧ s.IsValid ∧ cs = s.name.toList := by
  obtain ⟨n, -, rfl, rfl, hvalid⟩ := readWidth_eq_ok_iff.mp h
  refine ⟨hbasic n, hvalid, ?_⟩
  rw [hname, String.toList_append, Nat.toList_repr]
  exact (List.isPrefixOf?_eq_some_iff_append_eq.mp hcut).symm

/-- The families are told apart by their first letters, where a size
follows. -/
theorem readScalar_append {kind : String} {family : Nat → Schema}
    (hfamily : (kind, family) ∈ [("bytes", fixedBytes), ("uint", uint), ("int", int)])
    (hne : digits ≠ []) : readScalar (kind.toList ++ digits) = readWidth kind family digits := by
  simp only [List.mem_cons, Prod.mk.injEq, List.not_mem_nil, or_false] at hfamily
  rcases hfamily with ⟨rfl, rfl⟩ | ⟨rfl, rfl⟩ | ⟨rfl, rfl⟩ <;>
    simp [readScalar, List.isPrefixOf?, hne]

/-- A schema of a family is read from the name of the family and a size. -/
theorem readScalar_sized {kind : String} {family : Nat → Schema}
    (hfamily : (kind, family) ∈ [("bytes", fixedBytes), ("uint", uint), ("int", int)]) {n : Nat}
    (hmax : n ≤ maxSize) (hvalid : (family n).IsValid) :
    readScalar (kind ++ Nat.repr n).toList = .ok (family n) := by
  rw [String.toList_append, Nat.toList_repr, readScalar_append hfamily Nat.toDigits_ne_nil]
  exact readWidth_eq_ok_iff.mpr ⟨n, hmax, rfl, rfl, hvalid⟩

/-- **A basic schema is read from its name.** -/
theorem readScalar_name (hs : s.isBasic = true) (hvalid : s.IsValid) :
    readScalar s.name.toList = .ok s := by
  cases s with
  | uint bits =>
    have hmax := Nat.le_trans (isValid_uint_iff.mp hvalid).2.1 (by decide : 256 ≤ maxSize)
    exact readScalar_sized (by simp) hmax hvalid
  | int bits =>
    have hmax := Nat.le_trans (isValid_int_iff.mp hvalid).2.1 (by decide : 256 ≤ maxSize)
    exact readScalar_sized (by simp) hmax hvalid
  | fixedBytes size =>
    have hmax := Nat.le_trans (isValid_fixedBytes_iff.mp hvalid).2 (by decide : 32 ≤ maxSize)
    exact readScalar_sized (by simp) hmax hvalid
  | address | bool | bytes | string => rfl
  | array | fixedArray | tuple => cases hs

/-- **Reading a basic schema**: its name, or one of the two short ones. -/
theorem readScalar_eq_ok_iff :
    readScalar cs = .ok s
      ↔ s.isBasic = true ∧ s.IsValid ∧ cs = s.name.toList
        ∨ cs = "uint".toList ∧ s = uint 256 ∨ cs = "int".toList ∧ s = int 256 := by
  constructor
  · intro h
    unfold readScalar at h
    split_ifs at h with huint hint haddress hbool hbytes hstring
    case pos => exact .inr (.inl ⟨huint, (Except.ok.inj h).symm⟩)
    case pos => exact .inr (.inr ⟨hint, (Except.ok.inj h).symm⟩)
    case pos =>
      obtain rfl := Except.ok.inj h
      exact .inl ⟨rfl, rfl, haddress⟩
    case pos =>
      obtain rfl := Except.ok.inj h
      exact .inl ⟨rfl, rfl, hbool⟩
    case pos =>
      obtain rfl := Except.ok.inj h
      exact .inl ⟨rfl, rfl, hbytes⟩
    case pos =>
      obtain rfl := Except.ok.inj h
      exact .inl ⟨rfl, rfl, hstring⟩
    split at h
    case h_1 hcut => exact .inl (eq_name_of_readWidth (fun _ => rfl) (fun _ => rfl) hcut h)
    split at h
    case h_1 hcut => exact .inl (eq_name_of_readWidth (fun _ => rfl) (fun _ => rfl) hcut h)
    split at h
    case h_1 hcut => exact .inl (eq_name_of_readWidth (fun _ => rfl) (fun _ => rfl) hcut h)
    case h_2 => cases h
  · rintro (⟨hs, hvalid, rfl⟩ | ⟨rfl, rfl⟩ | ⟨rfl, rfl⟩)
    · exact readScalar_name hs hvalid
    · rfl
    · rfl

/-- What is read as a basic schema is made of letters and digits. -/
theorem isAlphanum_of_readScalar (h : readScalar cs = .ok s) :
    cs ≠ [] ∧ ∀ c ∈ cs, c.isAlphanum = true := by
  rcases readScalar_eq_ok_iff.mp h with ⟨hs, -, rfl⟩ | ⟨rfl, -⟩ | ⟨rfl, -⟩
  · exact ⟨name_ne_nil_of_isBasic hs, fun c hc => isAlphanum_of_mem_name hs hc⟩
  · simp
  · simp

/-! ## Members -/

/-- The last member is what is left of the text. -/
theorem eq_of_scanMember_last {depth : Nat} {acc member : List Char}
    (h : scanMember depth acc cs = .last member) : member = acc.reverse ++ cs := by
  fun_induction scanMember depth acc cs with
  | case1 =>
    cases h
    simp
  | case2 | case4 | case6 => cases h
  | case3 | case5 | case7 =>
    rename_i ih
    simpa using ih h

/-- A member before the last ends at a comma. -/
theorem eq_of_scanMember_more {depth : Nat} {acc member : List Char}
    (h : scanMember depth acc cs = .more member rest) :
    acc.reverse ++ cs = member ++ ',' :: rest := by
  fun_induction scanMember depth acc cs with
  | case1 | case2 | case4 => cases h
  | case6 =>
    cases h
    rfl
  | case3 | case5 | case7 =>
    rename_i ih
    simpa using ih h

/-- **The scan passes over the text**, when it is inside that many
parentheses or more. -/
def Passed (least : Nat) (cs : List Char) : Prop :=
  ∀ ⦃depth : Nat⦄, least ≤ depth → ∀ acc rest : List Char,
    scanMember depth acc (cs ++ rest) = scanMember depth (cs.reverse ++ acc) rest

/-- What is passed anywhere is passed further inside. -/
theorem Passed.mono {least more : Nat} (h : Passed least cs) (hle : least ≤ more) :
    Passed more cs :=
  fun _ hdepth => h (Nat.le_trans hle hdepth)

theorem passed_nil (least : Nat) : Passed least [] := fun _ _ _ _ => rfl

/-- One text after the other. -/
theorem Passed.append {least : Nat} (hcs : Passed least cs) (hds : Passed least ds) :
    Passed least (cs ++ ds) := by
  intro depth hdepth acc rest
  rw [List.append_assoc, hcs hdepth, hds hdepth, List.reverse_append, List.append_assoc]

/-- A character without a meaning to the scan. -/
theorem passed_singleton (hopen : c ≠ '(') (hclose : c ≠ ')') (hcomma : c ≠ ',') :
    Passed 0 [c] := by
  intro depth _ acc rest
  rw [List.singleton_append, List.reverse_singleton, List.singleton_append]
  simp [scanMember, hclose, hcomma]

/-- A text of such characters. -/
theorem passed_of_forall (h : ∀ c ∈ cs, c ≠ '(' ∧ c ≠ ')' ∧ c ≠ ',') : Passed 0 cs := by
  induction cs with
  | nil => exact passed_nil 0
  | cons c cs ih =>
    obtain ⟨⟨hopen, hclose, hcomma⟩, hcs⟩ := List.forall_mem_cons.mp h
    exact (passed_singleton hopen hclose hcomma).append (ih hcs)

/-- A comma between parentheses. -/
theorem passed_comma : Passed 1 [','] := by
  intro depth hdepth acc rest
  obtain ⟨depth, rfl⟩ := Nat.exists_eq_add_of_le' hdepth
  rfl

/-- **What is passed between parentheses is passed with them.** -/
theorem Passed.parenthesized (h : Passed 1 inner) : Passed 0 ('(' :: inner ++ [')']) := by
  intro depth _ acc rest
  have hopen : scanMember depth acc ('(' :: inner ++ [')'] ++ rest)
      = scanMember (depth + 1) ('(' :: acc) (inner ++ (')' :: rest)) := by
    rw [List.append_assoc, List.cons_append]
    cases depth <;> rfl
  have hclose : scanMember (depth + 1) (inner.reverse ++ '(' :: acc) (')' :: rest)
      = scanMember depth (')' :: (inner.reverse ++ '(' :: acc)) rest := rfl
  rw [hopen, h (Nat.le_add_left 1 depth), hclose]
  simp

/-- A member that is passed is the last one at the end of the text. -/
theorem Passed.scanMember_eq (h : Passed 0 cs) : scanMember 0 [] cs = .last cs := by
  have hscan := h (Nat.le_refl 0) [] []
  rw [List.append_nil, List.append_nil] at hscan
  rw [hscan]
  simp [scanMember]

/-- A member that is passed ends at the comma behind it. -/
theorem Passed.scanMember_append_eq (h : Passed 0 cs) :
    scanMember 0 [] (cs ++ ',' :: rest) = .more cs rest := by
  rw [h (Nat.le_refl 0), List.append_nil]
  simp [scanMember]

/-! ## Steps -/

/-- **What a text is read as**, in terms of what its parts are read as. -/
inductive ReadsAs (text : List Char) : Schema → Prop
  /-- The text ends in a suffix without a size. -/
  | array {element : List Char} {s : Schema} (hcut : trim text = element ++ ['[', ']'])
    (hs : ofChars element = .ok s) : ReadsAs text (array s)
  /-- The text ends in a suffix with a size. -/
  | fixedArray {element : List Char} {size : Nat} {s : Schema}
    (hcut : trim text = element ++ '[' :: Nat.toDigits 10 size ++ [']'])
    (hs : ofChars element = .ok s) (hvalid : (fixedArray s size).IsValid) :
    ReadsAs text (fixedArray s size)
  /-- There is nothing between the parentheses. -/
  | unit {inner : List Char} (hcut : trim text = '(' :: inner ++ [')'])
    (hinner : isEmptyOrBlank inner = true) : ReadsAs text (tuple [])
  /-- There are members between the parentheses. -/
  | tuple {inner : List Char} {members : List Schema} (hcut : trim text = '(' :: inner ++ [')'])
    (hinner : isEmptyOrBlank inner = false) (hmembers : membersOfChars inner inner = .ok members) :
    ReadsAs text (tuple members)
  /-- The text is cut no further. -/
  | basic {s : Schema} (hs : readScalar (trim text) = .ok s) : ReadsAs text s

/-- Behind a closing parenthesis there is no suffix. -/
theorem arraySuffix_of_parenthesized (hcut : cs = '(' :: inner ++ [')']) :
    arraySuffix cs = .absent := by
  refine arraySuffix_of_getLast? ?_
  rw [hcut, List.getLast?_concat]
  decide

/-- The name of a basic schema is cut no further. -/
theorem not_cut_of_readScalar (h : readScalar cs = .ok s) :
    arraySuffix cs = .absent ∧ parenthesized? cs = none := by
  obtain ⟨-, halphanum⟩ := isAlphanum_of_readScalar h
  refine ⟨arraySuffix_of_getLast? fun hlast => ?_, ?_⟩
  · exact absurd (halphanum _ (List.mem_of_getLast? hlast)) (by decide)
  · refine Option.eq_none_iff_forall_ne_some.mpr fun inner hinner => ?_
    obtain rfl := parenthesized?_eq_some_iff.mp hinner
    exact absurd (halphanum '(' (by simp)) (by decide)

/-- A result that was changed was there before. -/
theorem exists_of_map_eq_ok {ε α β : Type} {x : Except ε α} {f : α → β} {b : β}
    (h : x.map f = .ok b) : ∃ a, x = .ok a ∧ b = f a := by
  cases x with
  | error e => cases h
  | ok a => exact ⟨a, rfl, (Except.ok.inj h).symm⟩

/-- A suffix without a size is that of an array. -/
theorem ofChars_of_open {text : List Char} (hsuffix : arraySuffix (trim text) = .open_ element) :
    ofChars text = (ofChars element).map array := by
  rw [ofChars]
  split
  case h_1 h =>
    cases hsuffix.symm.trans h
    cases ofChars element <;> rfl
  case h_2 h => cases hsuffix.symm.trans h
  case h_3 h => cases hsuffix.symm.trans h

/-- A suffix with a size is that of a fixed array. -/
theorem ofChars_of_sized {text : List Char} {size : Nat}
    (hsuffix : arraySuffix (trim text) = .sized element digits) (hsize : size? digits = some size) :
    ofChars text = (ofChars element).bind fun s => checked (fixedArray s size) := by
  rw [ofChars]
  split
  case h_1 h => cases hsuffix.symm.trans h
  case h_2 h =>
    cases hsuffix.symm.trans h
    rw [hsize]
    cases ofChars element <;> rfl
  case h_3 h => cases hsuffix.symm.trans h

/-- Parentheses are those of a tuple. -/
theorem ofChars_of_parenthesized {text : List Char} (hcut : trim text = '(' :: inner ++ [')']) :
    ofChars text = if isEmptyOrBlank inner then .ok (tuple [])
      else (membersOfChars inner inner).map tuple := by
  have hsuffix := arraySuffix_of_parenthesized hcut
  have hparentheses := parenthesized?_eq_some_iff.mpr hcut
  rw [ofChars]
  split
  case h_1 h => cases hsuffix.symm.trans h
  case h_2 h => cases hsuffix.symm.trans h
  case h_3 =>
    split
    case h_1 h =>
      cases hparentheses.symm.trans h
      cases membersOfChars inner inner <;> rfl
    case h_2 h => cases hparentheses.symm.trans h

/-- Anything else is a basic schema. -/
theorem ofChars_of_absent {text : List Char} (hsuffix : arraySuffix (trim text) = .absent)
    (hparentheses : parenthesized? (trim text) = none) : ofChars text = readScalar (trim text) := by
  rw [ofChars]
  split
  case h_1 h => cases hsuffix.symm.trans h
  case h_2 h => cases hsuffix.symm.trans h
  case h_3 =>
    split
    case h_1 h => cases hparentheses.symm.trans h
    case h_2 => rfl

/-- A size that is none is refused. -/
theorem exists_size_of_ofChars {text : List Char}
    (hsuffix : arraySuffix (trim text) = .sized element digits) (h : ofChars text = .ok s) :
    ∃ size, size? digits = some size := by
  rw [ofChars] at h
  split at h
  case h_1 h' => cases hsuffix.symm.trans h'
  case h_2 h' =>
    cases hsuffix.symm.trans h'
    split at h
    case h_1 => cases h
    case h_2 size hsize => exact ⟨size, hsize⟩
  case h_3 h' => cases hsuffix.symm.trans h'

/-- What is read was cut in one of these ways. -/
theorem readsAs_of_ofChars {text : List Char} (h : ofChars text = .ok s) : ReadsAs text s := by
  cases hsuffix : arraySuffix (trim text) with
  | open_ element =>
    rw [ofChars_of_open hsuffix] at h
    obtain ⟨t, ht, rfl⟩ := exists_of_map_eq_ok h
    exact .array (arraySuffix_eq_open_iff.mp hsuffix) ht
  | sized element digits =>
    obtain ⟨size, hsize⟩ := exists_size_of_ofChars hsuffix h
    obtain ⟨-, rfl⟩ := size?_eq_some_iff.mp hsize
    rw [ofChars_of_sized hsuffix hsize] at h
    cases ht : ofChars element with
    | error e =>
      rw [ht] at h
      cases h
    | ok t =>
      rw [ht] at h
      obtain ⟨rfl, hvalid⟩ := checked_eq_ok_iff.mp h
      exact .fixedArray (eq_of_arraySuffix_sized hsuffix) ht hvalid
  | absent =>
    cases hparentheses : parenthesized? (trim text) with
    | none =>
      rw [ofChars_of_absent hsuffix hparentheses] at h
      exact .basic h
    | some inner =>
      have hcut := parenthesized?_eq_some_iff.mp hparentheses
      rw [ofChars_of_parenthesized hcut] at h
      split at h
      case isTrue hinner =>
        cases h
        exact .unit hcut hinner
      case isFalse hinner =>
        obtain ⟨members, hmembers, rfl⟩ := exists_of_map_eq_ok h
        exact .tuple hcut (Bool.eq_false_iff.mpr hinner) hmembers

/-- What can be cut in one of these ways is read. -/
theorem ReadsAs.ofChars_eq {text : List Char} (h : ReadsAs text s) : ofChars text = .ok s := by
  cases h with
  | array hcut hs =>
    rw [ofChars_of_open (arraySuffix_eq_open_iff.mpr hcut), hs]
    rfl
  | @fixedArray element size s hcut hs hvalid =>
    have hbracket : '[' ∉ Nat.toDigits 10 size := fun hmem =>
      absurd (isAlphanum_of_mem_toDigits hmem) (by decide)
    have hsuffix : arraySuffix (trim text) = .sized element (Nat.toDigits 10 size) := by
      rw [hcut]
      exact arraySuffix_sized Nat.toDigits_ne_nil hbracket
    have hsize : size? (Nat.toDigits 10 size) = some size :=
      size?_eq_some_iff.mpr ⟨(isValid_fixedArray_iff.mp hvalid).2.1, rfl⟩
    rw [ofChars_of_sized hsuffix hsize, hs]
    exact checked_eq_ok_iff.mpr ⟨rfl, hvalid⟩
  | unit hcut hinner => rw [ofChars_of_parenthesized hcut, if_pos hinner]
  | tuple hcut hinner hmembers =>
    rw [ofChars_of_parenthesized hcut, hinner, hmembers]
    rfl
  | basic hs =>
    obtain ⟨hsuffix, hparentheses⟩ := not_cut_of_readScalar hs
    rw [ofChars_of_absent hsuffix hparentheses, hs]

/-- **One step of reading a name.** -/
theorem ofChars_eq_ok_iff {text : List Char} : ofChars text = .ok s ↔ ReadsAs text s :=
  ⟨readsAs_of_ofChars, ReadsAs.ofChars_eq⟩

/-- A text is read as it is without the blanks around it. -/
theorem ofChars_eq_ok_of_trim_eq {text text' : List Char} (htrim : trim text = trim text')
    (h : ofChars text' = .ok s) : ofChars text = .ok s := by
  refine ofChars_eq_ok_iff.mpr ?_
  cases ofChars_eq_ok_iff.mp h with
  | array hcut hs => exact .array (htrim.trans hcut) hs
  | fixedArray hcut hs hvalid => exact .fixedArray (htrim.trans hcut) hs hvalid
  | unit hcut hinner => exact .unit (htrim.trans hcut) hinner
  | tuple hcut hinner hmembers => exact .tuple (htrim.trans hcut) hinner hmembers
  | basic hs => exact .basic (htrim ▸ hs)

/-- Nothing is read from blanks. -/
theorem isEmptyOrBlank_of_ofChars {text : List Char} (h : ofChars text = .ok s) :
    isEmptyOrBlank text = false := by
  refine Bool.eq_false_iff.mpr fun hblank => ?_
  have htrim := trim_of_isEmptyOrBlank hblank
  cases ofChars_eq_ok_iff.mp h with
  | array hcut | fixedArray hcut | unit hcut | tuple hcut => simp [htrim] at hcut
  | basic hs => exact (isAlphanum_of_readScalar hs).1 htrim

/-- What `Schema.membersOfChars` reads, member by member. -/
inductive MembersReadAs (whole cs : List Char) : List Schema → Prop
  /-- No comma is left. -/
  | last {s : Schema} (hscan : scanMember 0 [] cs = .last cs) (hcs : isEmptyOrBlank cs = false)
    (hs : ofChars cs = .ok s) : MembersReadAs whole cs [s]
  /-- There is a member in front of a comma. -/
  | more {member rest : List Char} {s : Schema} {ss : List Schema}
    (hscan : scanMember 0 [] cs = .more member rest) (hmember : isEmptyOrBlank member = false)
    (hs : ofChars member = .ok s) (hss : membersOfChars whole rest = .ok ss) :
    MembersReadAs whole cs (s :: ss)

/-- **One step of reading members.** -/
theorem membersOfChars_eq_ok_iff {whole : List Char} {ss : List Schema} :
    membersOfChars whole cs = .ok ss ↔ MembersReadAs whole cs ss := by
  constructor
  · intro h
    rw [membersOfChars] at h
    split at h
    case h_1 => cases h
    case h_2 member hscan =>
      obtain rfl := eq_of_scanMember_last hscan
      split_ifs at h with hblank
      split at h
      case h_1 => cases h
      case h_2 t ht =>
        cases h
        exact .last hscan (Bool.eq_false_iff.mpr hblank) ht
    case h_3 member rest hscan =>
      split_ifs at h with hblank
      split at h
      case h_1 => cases h
      case h_2 t ht =>
        split at h
        case h_1 => cases h
        case h_2 ts hts =>
          cases h
          exact .more hscan (Bool.eq_false_iff.mpr hblank) ht hts
  · intro h
    cases h with
    | last hscan hcs hs =>
      rw [membersOfChars]
      split <;> simp_all
    | more hscan hmember hs hss =>
      rw [membersOfChars]
      split <;> simp_all

end EthCall.Abi.Schema
