import EthCall.Abi.Schema
import EthCall.Text.Blank

/-!
# Reading the name of a schema

A name is read from the outside in. Array suffixes bind last, so the one
at the end of the text is the outermost; what remains is a parenthesised
list of members or the name of a scalar. Blanks are allowed around every
name, and `uint` and `int` stand for their 256-bit forms.

The text is only ever cut: each name that is read in turn is shorter than
the one it was found in, which is why reading ends.
-/

namespace EthCall.Abi.Schema

open Text

/-! ## Cutting the text -/

/-- How a name ends. -/
inductive ArraySuffix where
  /-- In `[]`, behind the name of the element. -/
  | open_ (element : List Char)
  /-- In a bracketed size, behind the name of the element. -/
  | sized (element digits : List Char)
  /-- In neither. -/
  | absent

/-- The array suffix of a name, looked for from the end of the text. A
closing bracket without an opening one is no suffix. -/
def arraySuffix (cs : List Char) : ArraySuffix :=
  match cs.reverse with
  | ']' :: '[' :: element => .open_ element.reverse
  | ']' :: rest =>
    match rest.dropWhile (· != '[') with
    | _ :: element => .sized element.reverse (rest.takeWhile (· != '[')).reverse
    | [] => .absent
  | _ => .absent

/-- What stands between the first and the last character, if they are a
pair of parentheses. -/
def parenthesized? : List Char → Option (List Char)
  | '(' :: rest =>
    match rest.reverse with
    | ')' :: inner => some inner.reverse
    | _ => none
  | _ => none

/-- What the scan for the end of a member finds. -/
inductive MemberScan where
  /-- A member, a comma and the text behind it. -/
  | more (member rest : List Char)
  /-- A member that ends with the text. -/
  | last (member : List Char)
  /-- A parenthesis without its partner. -/
  | unbalanced

/-- Scan for the end of a member: a comma outside all parentheses, or the
end of the text. `acc` holds the characters passed, in reverse. -/
def scanMember : (depth : Nat) → (acc : List Char) → List Char → MemberScan
  | depth, acc, [] => if depth = 0 then .last acc.reverse else .unbalanced
  | depth, acc, '(' :: rest => scanMember (depth + 1) ('(' :: acc) rest
  | 0, _, ')' :: _ => .unbalanced
  | depth + 1, acc, ')' :: rest => scanMember depth (')' :: acc) rest
  | 0, acc, ',' :: rest => .more acc.reverse rest
  | depth, acc, c :: rest => scanMember depth (c :: acc) rest

/-! ## Every cut shortens -/

theorem length_of_arraySuffix_open {cs element : List Char}
    (h : arraySuffix cs = .open_ element) : element.length < cs.length := by
  unfold arraySuffix at h
  split at h
  · rename_i r hr
    cases h
    have := congrArg List.length hr
    simp at this ⊢
    omega
  · split at h <;> simp at h
  · simp at h

theorem length_of_arraySuffix_sized {cs element digits : List Char}
    (h : arraySuffix cs = .sized element digits) : element.length < cs.length := by
  unfold arraySuffix at h
  split at h
  · simp at h
  · rename_i r _ hr
    split at h
    · rename_i c e he
      cases h
      have hlen := congrArg List.length hr
      have hsub := (List.dropWhile_sublist (fun x => x != '[') (l := r)).length_le
      rw [he] at hsub
      simp at hlen hsub ⊢
      omega
    · simp at h
  · simp at h

theorem length_of_parenthesized {cs inner : List Char}
    (h : parenthesized? cs = some inner) : inner.length < cs.length := by
  unfold parenthesized? at h
  split at h
  · rename_i rest
    split at h
    · rename_i r hr
      cases h
      have := congrArg List.length hr
      simp at this ⊢
      omega
    · simp at h
  · simp at h

theorem length_of_scanMember_last {depth : Nat} {acc cs member : List Char}
    (h : scanMember depth acc cs = .last member) : member.length ≤ acc.length + cs.length := by
  fun_induction scanMember depth acc cs with
  | case1 =>
    cases h
    simp
  | case2 | case4 | case6 => cases h
  | case3 | case5 | case7 =>
    rename_i ih
    have := ih h
    simp only [List.length_cons] at this ⊢
    omega

theorem length_of_scanMember_more {depth : Nat} {acc cs member rest : List Char}
    (h : scanMember depth acc cs = .more member rest) :
    member.length + rest.length < acc.length + cs.length := by
  fun_induction scanMember depth acc cs with
  | case1 | case2 | case4 => cases h
  | case6 =>
    cases h
    simp
  | case3 | case5 | case7 =>
    rename_i ih
    have := ih h
    simp only [List.length_cons] at this ⊢
    omega

/-! ## Reading -/

/-- A schema, unless something is wrong with it. -/
def checked (s : Schema) : Except SchemaError Schema :=
  match s.defect? with
  | some e => .error e
  | none => .ok s

/-- The schema of a family with a width, such as `uint`, from the digits
behind the name of the family. -/
def readWidth (kind : String) (family : Nat → Schema) (digits : List Char) :
    Except SchemaError Schema :=
  match size? digits with
  | some n => checked (family n)
  | none => .error (.malformedSize kind (String.ofList digits))

/-- The scalar of a name. -/
def readScalar (cs : List Char) : Except SchemaError Schema :=
  if cs = "uint".toList then .ok (uint 256)
  else if cs = "int".toList then .ok (int 256)
  else if cs = "address".toList then .ok address
  else if cs = "bool".toList then .ok bool
  else if cs = "bytes".toList then .ok bytes
  else if cs = "string".toList then .ok string
  else if let some digits := "bytes".toList.isPrefixOf? cs then
    readWidth "bytes" fixedBytes digits
  else if let some digits := "uint".toList.isPrefixOf? cs then readWidth "uint" uint digits
  else if let some digits := "int".toList.isPrefixOf? cs then readWidth "int" int digits
  else .error (.unknown (String.ofList cs))

mutual

/-- **The schema that characters name.** A scalar and a fixed array are
checked as they are read; an empty tuple is read, for it is the parameter
list of a function without parameters. -/
def ofChars (text : List Char) : Except SchemaError Schema :=
  match _hs : arraySuffix (trim text) with
  | .open_ element =>
    match ofChars element with
    | .error e => .error e
    | .ok s => .ok (array s)
  | .sized element digits =>
    -- A size that is none is reported even where the element is no schema either.
    match size? digits with
    | none => .error (.malformedArraySize (String.ofList digits))
    | some size =>
      match ofChars element with
      | .error e => .error e
      | .ok s => checked (fixedArray s size)
  | .absent =>
    match _hp : parenthesized? (trim text) with
    | some inner =>
      if isEmptyOrBlank inner then .ok (tuple [])
      else
        match membersOfChars inner inner with
        | .error e => .error e
        | .ok members => .ok (tuple members)
    | none => readScalar (trim text)
termination_by 2 * text.length
decreasing_by
  · have h1 := length_of_arraySuffix_open _hs
    have h2 := length_trim_le text
    omega
  · have h1 := length_of_arraySuffix_sized _hs
    have h2 := length_trim_le text
    omega
  · have h1 := length_of_parenthesized _hp
    have h2 := length_trim_le text
    omega

/-- The schemas that comma-separated names spell. `whole` is the list they
stand in, which errors show. -/
def membersOfChars (whole cs : List Char) : Except SchemaError (List Schema) :=
  match _hs : scanMember 0 [] cs with
  | .unbalanced => .error (.unbalanced (String.ofList whole))
  | .last member =>
    if isEmptyOrBlank member then .error (.emptyComponent (String.ofList whole))
    else
      match ofChars member with
      | .error e => .error e
      | .ok s => .ok [s]
  | .more member rest =>
    if isEmptyOrBlank member then .error (.emptyComponent (String.ofList whole))
    else
      match ofChars member with
      | .error e => .error e
      | .ok s =>
        match membersOfChars whole rest with
        | .error e => .error e
        | .ok ss => .ok (s :: ss)
termination_by 2 * cs.length + 1
decreasing_by
  · have h := length_of_scanMember_last _hs
    simp only [List.length_nil] at h
    omega
  · have h := length_of_scanMember_more _hs
    simp only [List.length_nil] at h
    omega
  · have h := length_of_scanMember_more _hs
    simp only [List.length_nil] at h
    omega

end

/-- **The schema a text names.** -/
def parse (s : String) : Except SchemaError Schema :=
  ofChars s.toList

end EthCall.Abi.Schema
