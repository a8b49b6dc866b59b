import EthCall.Json.Reader
import EthCall.Proofs.Json.Token

/-!
# Written values

The text of a value is read as that value (`Json.parse?_write`), if every
string in the value is a text; what is no text cannot be written.

Between the text and the value are the words (`Json.words`), and each half
of the reading is an induction on the value. The text is cut into the words
wherever it stands in front of something that ends a number
(`Json.CutsInto`). And in any place where a value may begin the words lead
to the value (`Json.Leads`).
-/

namespace EthCall.Json

/-! ## Values -/

/-- **Induction over the shape of a value.** -/
@[elab_as_elim]
theorem ind {motive : Json → Prop} (null : motive null) (bool : ∀ b, motive (bool b))
    (number : ∀ n, motive (number n)) (string : ∀ s, motive (string s))
    (array : ∀ items, (∀ j ∈ items, motive j) → motive (array items))
    (object : ∀ members, (∀ m ∈ members, motive m.2) → motive (object members)) (j : Json) :
    motive j :=
  Json.rec (motive_1 := motive) (motive_2 := fun items => ∀ j ∈ items, motive j)
    (motive_3 := fun members => ∀ m ∈ members, motive m.2) (motive_4 := fun m => motive m.2)
    null bool number string array object
    (fun _ h => nomatch h)
    (fun _ _ hitem hrest => List.forall_mem_cons.mpr ⟨hitem, hrest⟩)
    (fun _ h => nomatch h)
    (fun _ _ hmember hrest => List.forall_mem_cons.mpr ⟨hmember, hrest⟩)
    (fun _ _ hvalue => hvalue) j

/-- **Whether every string in a value is a text.** -/
inductive IsWritable : Json → Prop
  | null : IsWritable null
  | bool (b : Bool) : IsWritable (bool b)
  | number (n : Number) : IsWritable (number n)
  | text (s : String) : IsWritable (text s)
  | array {items : List Json} (h : ∀ j ∈ items, IsWritable j) : IsWritable (array items)
  | object {members : List (Text × Json)} (hnames : ∀ m ∈ members, m.1.isSome = true)
    (hvalues : ∀ m ∈ members, IsWritable m.2) : IsWritable (object members)

mutual

/-- **The words of a value.** -/
def words : Json → List Token
  | null => [.null]
  | bool b => [.bool b]
  | number n => [.number n]
  | string s => [.string s]
  | array items => .openArray :: [.comma].intercalate (itemWords items) ++ [.closeArray]
  | object members => .openObject :: [.comma].intercalate (memberWords members) ++ [.closeObject]

/-- The words of several values. -/
def itemWords : List Json → List (List Token)
  | [] => []
  | item :: rest => words item :: itemWords rest

/-- The words of several named values. -/
def memberWords : List (Text × Json) → List (List Token)
  | [] => []
  | (name, value) :: rest => (.string name :: .colon :: words value) :: memberWords rest

end

/-! ## From the text to the words -/

/-- **The characters are cut into the words** in front of whatever ends a
number. -/
def CutsInto (cs : List Char) (ts : List Token) : Prop :=
  ∀ ⦃acc : List Token⦄ ⦃rest : List Char⦄, EndsNumber rest →
    tokens? acc (cs ++ rest) = tokens? (ts.reverse ++ acc) rest

/-- A word alone is cut off, if its reading ends where a number does. -/
theorem cutsInto_singleton {cs : List Char} {t : Token}
    (h : ∀ rest, EndsNumber rest → readToken? (cs ++ rest) = some (t, rest)) :
    CutsInto cs [t] :=
  fun _ rest hrest => tokens?_of_readToken? (h rest hrest)

theorem CutsInto.append {cs ds : List Char} {ts us : List Token} (hcs : CutsInto cs ts)
    (hds : CutsInto ds us) (hend : ∀ rest, EndsNumber (ds ++ rest)) :
    CutsInto (cs ++ ds) (ts ++ us) := by
  intro acc rest hrest
  rw [List.append_assoc, hcs (hend rest), hds hrest, List.reverse_append, List.append_assoc]

/-- Punctuation is cut off in front of anything. -/
theorem CutsInto.cons {c : Char} {t : Token} {cs : List Char} {ts : List Token}
    (hc : ∀ rest, readToken? (c :: rest) = some (t, rest)) (h : CutsInto cs ts) :
    CutsInto (c :: cs) (t :: ts) := by
  intro acc rest hrest
  have hcut : tokens? acc (c :: (cs ++ rest)) = tokens? (t :: acc) (cs ++ rest) :=
    tokens?_of_readToken? (hc _)
  rw [List.cons_append, hcut, h hrest, List.reverse_cons, List.append_assoc]
  rfl

theorem endsNumber_cons {c : Char} (hc : c.isDigit = false ∧ c ≠ '.' ∧ c ≠ 'e' ∧ c ≠ 'E')
    (rest : List Char) : EndsNumber (c :: rest) := by
  rintro d ⟨⟩
  exact hc

/-- What is between brackets is cut, and the brackets. -/
theorem CutsInto.enclosed {cs : List Char} {ts : List Token} {o c : Char} {opening closing : Token}
    (ho : ∀ rest, readToken? (o :: rest) = some (opening, rest))
    (hc : ∀ rest, readToken? (c :: rest) = some (closing, rest))
    (hend : c.isDigit = false ∧ c ≠ '.' ∧ c ≠ 'e' ∧ c ≠ 'E') (h : CutsInto cs ts) :
    CutsInto (o :: cs ++ [c]) (opening :: ts ++ [closing]) :=
  (h.append (cutsInto_singleton fun rest _ => hc rest) (endsNumber_cons hend)).cons ho

/-- What is between commas is cut, and the commas. -/
theorem cutsInto_intercalate {texts : List (List Char)} {words : List (List Token)}
    (h : List.Forall₂ CutsInto texts words) :
    CutsInto ([','].intercalate texts) ([.comma].intercalate words) := by
  induction h with
  | nil => exact fun _ _ _ => rfl
  | cons hcs hrest ih =>
    cases hrest with
    | nil =>
      rw [List.intercalate_singleton, List.intercalate_singleton]
      exact hcs
    | cons =>
      rw [List.intercalate_cons_cons, List.intercalate_cons_cons, List.append_assoc,
        List.append_assoc]
      exact hcs.append (ih.cons fun _ => rfl) (endsNumber_cons (by decide))

theorem writeItems_eq_map (items : List Json) : writeItems items = items.map write := by
  induction items with
  | nil => rfl
  | cons j items ih => rw [writeItems, ih, List.map_cons]

theorem writeMembers_eq_map (members : List (Text × Json)) :
    writeMembers members = members.map fun m => writeString m.1 ++ ":" ++ m.2.write := by
  induction members with
  | nil => rfl
  | cons m members ih => rw [writeMembers, ih, List.map_cons]

theorem itemWords_eq_map (items : List Json) : itemWords items = items.map words := by
  induction items with
  | nil => rfl
  | cons j items ih => rw [itemWords, ih, List.map_cons]

theorem memberWords_eq_map (members : List (Text × Json)) :
    memberWords members = members.map fun m => .string m.1 :: .colon :: m.2.words := by
  induction members with
  | nil => rfl
  | cons m members ih => rw [memberWords, ih, List.map_cons]

/-- The literal of a text is one word. -/
theorem cutsInto_writeText (s : String) : CutsInto (writeText s).toList [.string (some s)] :=
  cutsInto_singleton fun _ _ => readToken?_writeText s

/-- **The text of a value is cut into its words.** -/
theorem cutsInto_words {j : Json} (h : j.IsWritable) : CutsInto j.write.toList j.words := by
  induction h with
  | null => exact cutsInto_singleton fun _ _ => rfl
  | bool b => cases b <;> exact cutsInto_singleton fun _ _ => rfl
  | number n => exact cutsInto_singleton fun _ hrest => readToken?_write n hrest
  | text s => exact cutsInto_writeText s
  | @array items _ ih =>
    have hwritten : (array items).write.toList
        = '[' :: [','].intercalate (items.map fun j => j.write.toList) ++ [']'] := by
      simp [write, writeItems_eq_map, String.toList_append, String.toList_intercalate,
        Function.comp_def]
    rw [hwritten, words, itemWords_eq_map]
    refine (cutsInto_intercalate ?_).enclosed (fun _ => rfl) (fun _ => rfl) (by decide)
    rw [List.forall₂_map_left_iff, List.forall₂_map_right_iff, List.forall₂_same]
    exact ih
  | @object members hnames _ ih =>
    have hwritten : (object members).write.toList
        = '\x7b' :: [','].intercalate (members.map fun m =>
            (writeString m.1).toList ++ ':' :: m.2.write.toList) ++ ['\x7d'] := by
      simp [write, writeMembers_eq_map, String.toList_append, String.toList_intercalate,
        Function.comp_def]
    rw [hwritten, words, memberWords_eq_map]
    refine (cutsInto_intercalate ?_).enclosed (fun _ => rfl) (fun _ => rfl) (by decide)
    rw [List.forall₂_map_left_iff, List.forall₂_map_right_iff, List.forall₂_same]
    intro m hm
    obtain ⟨s, hs⟩ := Option.isSome_iff_exists.mp (hnames m hm)
    rw [hs]
    exact (cutsInto_writeText s).append ((ih m hm).cons fun _ => rfl) (endsNumber_cons (by decide))

/-! ## From the words to the value -/

/-- **The words lead from one state to another.** -/
def Leads (s : ReadState) (ts : List Token) (s' : ReadState) : Prop :=
  ts.foldlM ReadState.take? s = some s'

variable {s s' s'' : ReadState} {ts us : List Token} {opened : List Open}

theorem Leads.append (hts : Leads s ts s') (hus : Leads s' us s'') : Leads s (ts ++ us) s'' := by
  unfold Leads at hts hus ⊢
  rw [List.foldlM_append, hts]
  exact hus

/-- The first word is taken in first. -/
theorem Leads.cons {t : Token} (ht : s.take? t = some s') (h : Leads s' ts s'') :
    Leads s (t :: ts) s'' := by
  unfold Leads at h ⊢
  rw [List.foldlM_cons, ht]
  exact h

/-- The items of an array lead to its end, behind those that are `done`. -/
theorem leads_items {items : List Json} (hne : items ≠ []) (done : List Json)
    (hitems : ∀ j ∈ items, ∀ opened, Leads (.value opened) j.words (.complete j opened)) :
    Leads (.value (.array done :: opened))
      ([.comma].intercalate (items.map words) ++ [.closeArray])
      (.complete (.array (done.reverse ++ items)) opened) := by
  induction items generalizing done with
  | nil => exact absurd rfl hne
  | cons j items ih =>
    obtain ⟨hj, hitems⟩ := List.forall_mem_cons.mp hitems
    cases items with
    | nil =>
      rw [List.map_cons, List.map_nil, List.intercalate_singleton, ← List.reverse_cons]
      exact (hj _).append (.cons rfl rfl)
    | cons k items =>
      rw [List.map_cons, List.map_cons, List.intercalate_cons_cons, List.append_assoc,
        List.append_assoc, List.append_cons done.reverse, ← List.reverse_cons]
      exact (hj _).append (.cons rfl (ih (List.cons_ne_nil k items) (j :: done) hitems))

/-- The members of an object lead to its end, behind those that are
`done`. -/
theorem leads_members {members : List (Text × Json)} (hne : members ≠ [])
    (done : List (Text × Json))
    (hmembers : ∀ m ∈ members, ∀ opened, Leads (.value opened) m.2.words (.complete m.2 opened)) :
    Leads (.name done opened)
      ([.comma].intercalate (members.map fun m => .string m.1 :: .colon :: m.2.words)
        ++ [.closeObject])
      (.complete (.object (done.reverse ++ members)) opened) := by
  induction members generalizing done with
  | nil => exact absurd rfl hne
  | cons m members ih =>
    obtain ⟨hm, hmembers⟩ := List.forall_mem_cons.mp hmembers
    cases members with
    | nil =>
      rw [List.map_cons, List.map_nil, List.intercalate_singleton, ← List.reverse_cons]
      exact .cons rfl (.cons rfl ((hm _).append (.cons rfl rfl)))
    | cons n members =>
      rw [List.map_cons, List.map_cons, List.intercalate_cons_cons, List.append_assoc,
        List.append_assoc, List.append_cons done.reverse, ← List.reverse_cons]
      exact .cons rfl (.cons rfl ((hm _).append
        (.cons rfl (ih (List.cons_ne_nil n members) (m :: done) hmembers))))

/-- Whatever is separated begins with the first of it. -/
theorem exists_intercalate_cons (separator first : List Token) (others : List (List Token)) :
    ∃ us, separator.intercalate (first :: others) = first ++ us := by
  cases others with
  | nil => exact ⟨[], by rw [List.intercalate_singleton, List.append_nil]⟩
  | cons second others =>
    exact ⟨_, by rw [List.intercalate_cons_cons, List.append_assoc]⟩

/-- A value may be the first item of an array. -/
theorem Leads.firstItem {j : Json} (h : Leads (.value (.array [] :: opened)) (j.words ++ us) s) :
    Leads (.firstItem opened) (j.words ++ us) s := by
  cases j <;> exact h

/-- A name may be that of the first member of an object. -/
theorem Leads.firstMember {name : Text} (h : Leads (.name [] opened) (.string name :: us) s) :
    Leads (.firstMember opened) (.string name :: us) s :=
  h

/-- **The words of a value lead to the value**, wherever a value may
begin. -/
theorem leads_words (j : Json) (opened : List Open) :
    Leads (.value opened) j.words (.complete j opened) := by
  induction j using Json.ind generalizing opened with
  | null => exact .cons rfl rfl
  | bool b => exact .cons rfl rfl
  | number n => exact .cons rfl rfl
  | string s => exact .cons rfl rfl
  | array items ih =>
    rw [words, itemWords_eq_map, List.cons_append]
    refine Leads.cons (show _ = some (.firstItem opened) from rfl) ?_
    cases items with
    | nil => exact .cons rfl rfl
    | cons j items =>
      obtain ⟨us, hus⟩ := exists_intercalate_cons [.comma] j.words (items.map words)
      have hitems : Leads (.value (.array [] :: opened)) _ _ :=
        leads_items (List.cons_ne_nil j items) [] ih
      rw [List.map_cons, hus, List.append_assoc] at hitems ⊢
      exact hitems.firstItem
  | object members ih =>
    rw [words, memberWords_eq_map, List.cons_append]
    refine Leads.cons (show _ = some (.firstMember opened) from rfl) ?_
    cases members with
    | nil => exact .cons rfl rfl
    | cons m members =>
      obtain ⟨us, hus⟩ := exists_intercalate_cons [.comma] (.string m.1 :: .colon :: m.2.words)
        (members.map fun m => .string m.1 :: .colon :: m.2.words)
      have hmembers : Leads (.name [] opened) _ _ :=
        leads_members (List.cons_ne_nil m members) [] ih
      rw [List.map_cons, hus, List.append_assoc, List.cons_append] at hmembers ⊢
      exact hmembers.firstMember

/-- **What is written of a value is read as the value.** -/
theorem parse?_write {j : Json} (h : j.IsWritable) : parse? j.write = some j := by
  have htokens : tokens? [] j.write.toList = some j.words := by
    have hcut : tokens? [] (j.write.toList ++ []) = tokens? (j.words.reverse ++ []) [] :=
      cutsInto_words h fun _ hc => nomatch hc
    rw [List.append_nil, List.append_nil] at hcut
    rw [hcut, tokens?, List.reverse_reverse]
  have hleads : j.words.foldlM ReadState.take? (.value []) = some (.complete j []) :=
    leads_words j []
  unfold parse? ofTokens?
  rw [htokens]
  dsimp only
  rw [hleads]

end EthCall.Json
