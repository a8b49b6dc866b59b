import EthCall.Proofs.Evm.Emission
import Mathlib.Data.List.Nodup

/-!
# Assembled code

Code is assembled in two passes. The first takes the directives in order
and remembers the first that is wrong. Only where none is, the second pass
takes the references in order, and it gives up at the first whose label
stands nowhere, or too far off. The two passes are one statement, made for
two meanings of *wrong* (`FirstWrong`): what comes out is the first defect,
or else the first unresolved reference, or else the code
(`assemble_cases`).

The code is what the directives spell, with the places where labels do
stand (`Directive.spelled`). Nothing is asked of the bytes that are given
to a directive. They need not fall into instructions, and a reference is
filled in at its own two bytes all the same, as its place is counted in
bytes and not in instructions.
-/

namespace EthCall.Evm

/-! ## The first that is wrong -/

section First

variable {wrong : List Directive → Directive → AssemblerError → Prop}

/-- **No directive is wrong.** Each is judged behind those in front of
it. -/
def NoneWrong (wrong : List Directive → Directive → AssemblerError → Prop)
    (ds : List Directive) : Prop :=
  ∀ front d back, ds = front ++ d :: back → ∀ e, ¬ wrong front d e

/-- **The first directive that is wrong** is wrong for this reason. -/
def FirstWrong (wrong : List Directive → Directive → AssemblerError → Prop)
    (ds : List Directive) (e : AssemblerError) : Prop :=
  ∃ front d back, ds = front ++ d :: back ∧ NoneWrong wrong front ∧ wrong front d e

/-- A directive in a list with one more is in the list or that one. -/
theorem concat_eq_append_cons_iff {ds front back : List Directive} {d d' : Directive} :
    ds ++ [d] = front ++ d' :: back
      ↔ (∃ back', back = back' ++ [d] ∧ ds = front ++ d' :: back')
        ∨ back = [] ∧ ds = front ∧ d = d' := by
  rcases List.eq_nil_or_concat' back with rfl | ⟨back', last, rfl⟩
  · simp
  · rw [← List.cons_append, ← List.append_assoc, List.append_singleton_inj]
    constructor
    · rintro ⟨hds, rfl⟩
      exact .inl ⟨back', rfl, hds⟩
    · rintro (⟨back'', hback, hds⟩ | ⟨hnil, -⟩)
      · obtain ⟨rfl, rfl⟩ := List.append_singleton_inj.mp hback
        exact ⟨hds, rfl⟩
      · simp at hnil

theorem noneWrong_nil : NoneWrong wrong [] := by
  intro front d back h
  simp at h

theorem noneWrong_concat_iff {ds : List Directive} {d : Directive} :
    NoneWrong wrong (ds ++ [d]) ↔ NoneWrong wrong ds ∧ ∀ e, ¬ wrong ds d e := by
  constructor
  · intro h
    refine ⟨fun front d' back hds => ?_, h ds d [] rfl⟩
    exact h front d' (back ++ [d]) (concat_eq_append_cons_iff.mpr (.inl ⟨back, rfl, hds⟩))
  · rintro ⟨hds, hd⟩ front d' back heq
    rcases concat_eq_append_cons_iff.mp heq with ⟨back', -, heq⟩ | ⟨-, rfl, rfl⟩
    · exact hds front d' back' heq
    · exact hd

theorem firstWrong_concat_iff {ds : List Directive} {d : Directive} {e : AssemblerError} :
    FirstWrong wrong (ds ++ [d]) e
      ↔ FirstWrong wrong ds e ∨ NoneWrong wrong ds ∧ wrong ds d e := by
  constructor
  · rintro ⟨front, d', back, heq, hfront, hd'⟩
    rcases concat_eq_append_cons_iff.mp heq with ⟨back', -, heq⟩ | ⟨-, rfl, rfl⟩
    · exact .inl ⟨front, d', back', heq, hfront, hd'⟩
    · exact .inr ⟨hfront, hd'⟩
  · rintro (⟨front, d', back, rfl, hfront, hd'⟩ | ⟨hds, hd⟩)
    · exact ⟨front, d', back ++ [d], by simp, hfront, hd'⟩
    · exact ⟨ds, d, [], rfl, hds, hd⟩

/-- **None is wrong just if there is no first.** -/
theorem noneWrong_iff {ds : List Directive} :
    NoneWrong wrong ds ↔ ∀ e, ¬ FirstWrong wrong ds e := by
  constructor
  · rintro h e ⟨front, d, back, heq, -, hd⟩
    exact h front d back heq e hd
  · intro h
    induction ds using List.reverseRecOn with
    | nil => exact noneWrong_nil
    | append_singleton ds d ih =>
      have hds := ih fun e he => h e (firstWrong_concat_iff.mpr (.inl he))
      exact noneWrong_concat_iff.mpr
        ⟨hds, fun e hd => h e (firstWrong_concat_iff.mpr (.inr ⟨hds, hd⟩))⟩

/-- Where it does not matter what is in front of a directive, it does not
matter where it is. -/
theorem noneWrong_const_iff {wrong : Directive → AssemblerError → Prop} {ds : List Directive} :
    NoneWrong (fun _ => wrong) ds ↔ ∀ d ∈ ds, ∀ e, ¬ wrong d e := by
  constructor
  · intro h d hd
    obtain ⟨front, back, heq⟩ := List.append_of_mem hd
    exact h front d back heq
  · rintro h front d back rfl
    exact h d List.mem_append_cons_self

end First

/-! ## What is wrong -/

/-- A directive is wrong behind others, for this reason. -/
def Directive.Defective (before : List Directive) (d : Directive) (e : AssemblerError) : Prop :=
  d.defect? before = some e

theorem Directive.forall_not_defective_iff {before : List Directive} {d : Directive} :
    (∀ e, ¬ d.Defective before e) ↔ d.defect? before = none :=
  Option.eq_none_iff_forall_ne_some.symm

/-- **A reference is not resolved** among some directives. -/
inductive Directive.Unresolved (ds : List Directive) (d : Directive) : AssemblerError → Prop where
  /-- Its label stands nowhere. -/
  | undefined {l : String} (hd : d.reference? = some l) (h : ∀ q, ¬ LabelAt ds l q) :
    Unresolved ds d (.undefinedLabel l)
  /-- Its label stands where two bytes do not reach. -/
  | outOfRange {l : String} {q : Nat} (hd : d.reference? = some l) (h : LabelAt ds l q)
    (hq : 0xffff < q) : Unresolved ds d (.labelOutOfRange l q)

namespace Assembly

/-! ## The first pass -/

variable {ds : List Directive}

theorem foldl_follow_concat (ds : List Directive) (d : Directive) :
    (ds ++ [d]).foldl follow .empty = (ds.foldl follow .empty).follow d := by
  rw [List.foldl_append]
  rfl

/-- **A label is not entered just if it stands nowhere**, whatever is wrong
with the directives. -/
theorem lookup_labels_eq_none_iff (ds : List Directive) (label : String) :
    (ds.foldl follow .empty).labels.lookup label = none ↔ .label label ∉ ds := by
  induction ds using List.reverseRecOn generalizing label with
  | nil => exact iff_of_true rfl List.not_mem_nil
  | append_singleton ds d ih =>
    rw [foldl_follow_concat, List.mem_append, List.mem_singleton, not_or, ← ih]
    by_cases hd : ∃ l, d = .label l
    · obtain ⟨l, rfl⟩ := hd
      show (mark _ l).labels.lookup label = none ↔ _
      unfold mark
      cases hl : (ds.foldl follow .empty).labels.lookup l with
      | some place =>
        refine (and_iff_left_of_imp fun hnone heq => ?_).symm
        cases heq
        cases hnone.symm.trans hl
      | none =>
        show List.lookup label ((l, _) :: _) = none ↔ _
        rw [List.lookup_cons]
        by_cases hne : label = l
        · subst hne
          simp
        · rw [beq_false_of_ne hne]
          simp [hne]
    · rw [labels_follow fun l heq => hd ⟨l, heq⟩]
      exact (and_iff_left fun heq => hd ⟨label, heq.symm⟩).symm

/-- What is wrong with one more directive is remembered unless something was
before. -/
theorem error?_follow_eq (ds : List Directive) (d : Directive) :
    ((ds.foldl follow .empty).follow d).error?
      = (ds.foldl follow .empty).error?.or (d.defect? ds) := by
  cases hd : d.defect? ds with
  | none =>
    rw [Option.or_none]
    exact (follows_of_defect?_eq_none (lookup_labels_eq_none_iff ds) hd).error?_eq
  | some e =>
    rw [follow_of_defect? (lookup_labels_eq_none_iff ds) hd]
    rfl

/-- **The first defect is remembered.** -/
theorem error?_eq_some_iff {e : AssemblerError} :
    (ds.foldl follow .empty).error? = some e ↔ FirstWrong Directive.Defective ds e := by
  induction ds using List.reverseRecOn generalizing e with
  | nil =>
    refine iff_of_false (by simp [empty]) ?_
    exact noneWrong_iff.mp noneWrong_nil e
  | append_singleton ds d ih =>
    have hnone : (ds.foldl follow .empty).error? = none ↔ NoneWrong Directive.Defective ds := by
      rw [Option.eq_none_iff_forall_ne_some, noneWrong_iff]
      exact forall_congr' fun e => not_congr ih
    rw [foldl_follow_concat, error?_follow_eq, Option.or_eq_some_iff, ih, hnone,
      firstWrong_concat_iff]
    rfl

theorem error?_eq_none_iff :
    (ds.foldl follow .empty).error? = none ↔ NoneWrong Directive.Defective ds := by
  rw [Option.eq_none_iff_forall_ne_some, noneWrong_iff]
  exact forall_congr' fun e => not_congr error?_eq_some_iff

/-- **What is emitted where nothing is wrong.** -/
theorem emitted_of_noneWrong (h : NoneWrong Directive.Defective ds) :
    (ds.foldl follow .empty).code.toList = ds.flatMap (Directive.spelled fun _ => 0)
      ∧ (ds.foldl follow .empty).references.toList = Directive.references 0 ds := by
  induction ds using List.reverseRecOn with
  | nil => exact ⟨rfl, rfl⟩
  | append_singleton ds d ih =>
    obtain ⟨hds, hd⟩ := noneWrong_concat_iff.mp h
    obtain ⟨hcode, hreferences⟩ := ih hds
    have hfollows := follows_of_defect?_eq_none (lookup_labels_eq_none_iff ds)
      (Directive.forall_not_defective_iff.mp hd)
    rw [foldl_follow_concat, hfollows.code_eq, hfollows.references_eq, hcode, hreferences,
      Directive.references_append, List.flatMap_append, Nat.zero_add]
    exact ⟨congrArg _ (List.append_nil _).symm, congrArg _ (List.append_nil _).symm⟩

/-- **A directive starts where those in front of it end.** -/
theorem place_eq_length_spelled (h : NoneWrong Directive.Defective ds) (place : String → Nat)
    (i : Nat) : Directive.place ds i = ((ds.take i).flatMap (Directive.spelled place)).length := by
  have htake : NoneWrong Directive.Defective (ds.take i) := by
    intro front d back heq
    refine h front d (back ++ ds.drop i) ?_
    rw [← List.cons_append, ← List.append_assoc, ← heq, List.take_append_drop]
  rw [Directive.place_eq_length, (emitted_of_noneWrong htake).1]
  exact Directive.length_flatMap_spelled _ _ _

/-! ## The second pass -/

/-- The place of a label, among those entered. -/
def placeIn (labels : List (String × Nat)) (label : String) : Nat :=
  (labels.lookup label).getD 0

/-- A label can be referred to. -/
def Resolves (labels : List (String × Nat)) (label : String) : Prop :=
  ∃ q ≤ 0xffff, labels.lookup label = some q

variable {labels : List (String × Nat)}

/-- **A reference is filled in at its own two bytes.** -/
theorem resolve_eq_ok {label : String} (h : Resolves labels label) (front behind : Bytes) :
    resolve labels (front ++ (pushOf (Bytes.ofNat 2 0) ++ behind)).toArray
        (front.length + 1, label)
      = .ok (front ++ (pushOf (Bytes.ofNat 2 (placeIn labels label)) ++ behind)).toArray := by
  obtain ⟨q, hle, hlookup⟩ := h
  rw [resolve, placeIn, hlookup, pushOf_place, pushOf_place]
  dsimp only
  rw [if_pos hle, List.setIfInBounds_toArray, List.setIfInBounds_toArray]
  simp [Nat.add_assoc]

/-- The same for the directive whose reference it is. Others need nothing. -/
theorem foldlM_resolve_reference {d : Directive}
    (h : ∀ label, d.reference? = some label → Resolves labels label) (front behind : Bytes) :
    (d.reference?.map fun label => (front.length + 1, label)).toList.foldlM (resolve labels)
        (front ++ (d.spelled (fun _ => 0) ++ behind)).toArray
      = .ok (front ++ (d.spelled (placeIn labels) ++ behind)).toArray := by
  cases hreference : d.reference? with
  | none =>
    rw [Directive.spelled_of_reference?_eq_none hreference (fun _ => 0) (placeIn labels)]
    rfl
  | some label =>
    obtain ⟨rest, hspelled⟩ := Directive.exists_spelled_of_reference? hreference
    have hfilled := resolve_eq_ok (h label hreference) front (rest ++ behind)
    rw [hspelled, hspelled, List.append_assoc, List.append_assoc]
    show resolve _ _ _ >>= pure = _
    rw [hfilled]
    rfl

/-- **All references are filled in**, if their labels can be referred to. -/
theorem foldlM_resolve_eq_ok
    (h : ∀ d ∈ ds, ∀ label, d.reference? = some label → Resolves labels label)
    (front behind : Bytes) :
    (Directive.references front.length ds).foldlM (resolve labels)
        (front ++ (ds.flatMap (Directive.spelled fun _ => 0) ++ behind)).toArray
      = .ok (front ++ (ds.flatMap (Directive.spelled (placeIn labels)) ++ behind)).toArray := by
  induction ds generalizing front with
  | nil => rfl
  | cons d ds ih =>
    obtain ⟨hd, hds⟩ := List.forall_mem_cons.mp h
    have hrest := ih hds (front ++ d.spelled (placeIn labels))
    rw [List.length_append, d.length_spelled (placeIn labels) fun _ => 0, List.append_assoc,
      List.append_assoc] at hrest
    rw [Directive.references, List.foldlM_append, List.flatMap_cons, List.flatMap_cons,
      List.append_assoc, List.append_assoc, foldlM_resolve_reference hd]
    exact hrest

/-- **The first reference that is not resolved ends the second pass.** -/
theorem foldlM_resolve_eq_error {d : Directive} {label : String} {e : AssemblerError}
    {back : List Directive}
    (h : ∀ d ∈ ds, ∀ label, d.reference? = some label → Resolves labels label)
    (hd : d.reference? = some label)
    (he : ∀ code place, resolve labels code (place, label) = .error e) :
    (Directive.references 0 (ds ++ d :: back)).foldlM (resolve labels)
        ((ds ++ d :: back).flatMap (Directive.spelled fun _ => 0)).toArray = .error e := by
  have hfront := foldlM_resolve_eq_ok h [] ((d :: back).flatMap (Directive.spelled fun _ => 0))
  rw [List.nil_append, List.length_nil] at hfront
  rw [Directive.references_append, List.foldlM_append, List.flatMap_append, hfront,
    Directive.references, hd]
  show (resolve _ _ _ >>= _) = _
  rw [he]
  rfl

end Assembly

/-! ## Both passes -/

section Passes

variable {ds : List Directive}

open Assembly Directive

/-- The labels that can be referred to are those at a place that two bytes
can hold. -/
theorem resolves_iff (h : NoneWrong Defective ds) (label : String) :
    Resolves (ds.foldl follow .empty).labels label ↔ ∃ q ≤ 0xffff, LabelAt ds label q := by
  unfold Resolves
  simp only [lookup_labels_eq_some_iff (error?_eq_none_iff.mpr h)]

/-- What is wrong with a reference is what it is given up for. -/
theorem Directive.Unresolved.resolve_eq_error (h : NoneWrong Defective ds) {d : Directive}
    {e : AssemblerError} (hd : d.Unresolved ds e) :
    ∃ label, d.reference? = some label ∧ ∀ code place,
      resolve (ds.foldl follow .empty).labels code (place, label) = .error e := by
  have hlookup := lookup_labels_eq_some_iff (error?_eq_none_iff.mpr h)
  cases hd with
  | @undefined label hreference hlabel =>
    have hnone : (ds.foldl follow .empty).labels.lookup label = none :=
      Option.eq_none_iff_forall_ne_some.mpr fun q => mt (hlookup label q).mp (hlabel q)
    refine ⟨label, hreference, fun code place => ?_⟩
    rw [resolve, hnone]
  | @outOfRange label q hreference hlabel hq =>
    refine ⟨label, hreference, fun code place => ?_⟩
    rw [resolve, (hlookup label q).mpr hlabel]
    exact if_neg (Nat.not_le.mpr hq)

/-- A reference with which nothing is wrong has a label that can be referred
to. -/
theorem resolves_of_not_unresolved (h : NoneWrong Defective ds) {d : Directive}
    (hd : ∀ e, ¬ d.Unresolved ds e) {label : String} (hlabel : d.reference? = some label) :
    Resolves (ds.foldl follow .empty).labels label := by
  rw [resolves_iff h]
  by_contra hnone
  push Not at hnone
  by_cases hat : ∃ q, LabelAt ds label q
  · obtain ⟨q, hq⟩ := hat
    exact hd _ (.outOfRange hlabel hq (Nat.lt_of_not_le fun hle => hnone q hle hq))
  · exact hd _ (.undefined hlabel (not_exists.mp hat))

/-- And the other way round. -/
theorem not_unresolved_of_resolves (h : NoneWrong Defective ds) {d : Directive}
    (hd : ∀ label, d.reference? = some label → Resolves (ds.foldl follow .empty).labels label)
    (e : AssemblerError) : ¬ d.Unresolved ds e := by
  intro he
  obtain ⟨label, hlabel, herror⟩ := he.resolve_eq_error h
  have hok := resolve_eq_ok (hd label hlabel) [] []
  cases hok.symm.trans (herror _ _)

theorem noneWrong_unresolved_iff (h : NoneWrong Defective ds) :
    NoneWrong (fun _ => Unresolved ds) ds ↔ ∀ label ∈ ds.filterMap reference?,
      ∃ q ≤ 0xffff, LabelAt ds label q := by
  rw [noneWrong_const_iff]
  simp only [← resolves_iff h]
  constructor
  · intro hds label hlabel
    obtain ⟨d, hd, hreference⟩ := List.mem_filterMap.mp hlabel
    exact resolves_of_not_unresolved h (hds d hd) hreference
  · intro hlabels d hd
    exact not_unresolved_of_resolves h fun label hlabel =>
      hlabels label (List.mem_filterMap.mpr ⟨d, hd, hlabel⟩)

/-- The first defect is what comes of directives. -/
theorem assemble_of_firstWrong {e : AssemblerError} (h : FirstWrong Defective ds e) :
    assemble ds = .error e := by
  unfold assemble build
  rw [error?_eq_some_iff.mpr h]

/-- Where there is none, it is what comes of the second pass. -/
theorem assemble_of_noneWrong (h : NoneWrong Defective ds) {x : Except AssemblerError (Array UInt8)}
    (hx : (references 0 ds).foldlM (resolve (ds.foldl follow .empty).labels)
      (ds.flatMap (spelled fun _ => 0)).toArray = x) : assemble ds = x.map Array.toList := by
  obtain ⟨hcode, hreferences⟩ := emitted_of_noneWrong h
  rw [← hcode, ← hreferences, Array.toArray_toList] at hx
  unfold assemble build
  rw [error?_eq_none_iff.mpr h]
  dsimp only
  rw [hx]
  cases x <;> rfl

/-- The first reference that is not resolved comes next. -/
theorem assemble_of_firstUnresolved (h : NoneWrong Defective ds) {e : AssemblerError}
    (he : FirstWrong (fun _ => Unresolved ds) ds e) : assemble ds = .error e := by
  obtain ⟨front, d, back, heq, hfront, hd⟩ := he
  obtain ⟨label, hlabel, herror⟩ := hd.resolve_eq_error h
  refine assemble_of_noneWrong h (x := .error e) ?_
  have hresolves : ∀ d ∈ front, ∀ label, d.reference? = some label →
      Resolves (ds.foldl follow .empty).labels label := fun d hd _ =>
    resolves_of_not_unresolved h (noneWrong_const_iff.mp hfront d hd)
  have hfold : (references 0 (front ++ d :: back)).foldlM
      (resolve (ds.foldl follow .empty).labels)
      ((front ++ d :: back).flatMap (spelled fun _ => 0)).toArray = .error e :=
    foldlM_resolve_eq_error hresolves hlabel herror
  rwa [← heq] at hfold

/-- **Otherwise it is the code that they spell.** -/
theorem assemble_of_resolved (h : NoneWrong Defective ds)
    (hresolved : NoneWrong (fun _ => Unresolved ds) ds) :
    assemble ds = .ok (ds.flatMap (spelled (placeIn (ds.foldl follow .empty).labels))) := by
  refine assemble_of_noneWrong h (x := .ok _) ?_
  have hresolves : ∀ d ∈ ds, ∀ label, d.reference? = some label →
      Resolves (ds.foldl follow .empty).labels label := fun d hd _ =>
    resolves_of_not_unresolved h (noneWrong_const_iff.mp hresolved d hd)
  have hfold := foldlM_resolve_eq_ok hresolves [] []
  rwa [List.nil_append, List.nil_append, List.append_nil, List.append_nil] at hfold

theorem mem_filterMap_label?_iff {l : String} :
    l ∈ ds.filterMap label? ↔ .label l ∈ ds := by
  rw [List.mem_filterMap]
  constructor
  · rintro ⟨d, hd, hlabel⟩
    cases d with
    | label l' => cases hlabel; exact hd
    | _ => cases hlabel
  · exact fun h => ⟨_, h, rfl⟩

/-- One more directive puts up a label that does not stand yet, or none. -/
theorem nodup_filterMap_label?_concat_iff {d : Directive} :
    ((ds ++ [d]).filterMap label?).Nodup
      ↔ (ds.filterMap label?).Nodup ∧ ∀ l, d = .label l → .label l ∉ ds := by
  rw [List.filterMap_append]
  cases d with
  | label l =>
    have hone : [Directive.label l].filterMap label? = [l] := rfl
    rw [hone, ← List.concat_eq_append, List.nodup_concat, mem_filterMap_label?_iff, and_comm]
    simp
  | _ =>
    refine iff_of_eq (congrArg List.Nodup (List.append_nil _)) |>.trans ?_
    simp

/-- **Nothing is wrong with directives** just if no push has a wrong size and
no label stands twice. -/
theorem noneWrong_defective_iff :
    NoneWrong Defective ds ↔ (∀ bs, .pushBytes bs ∈ ds → 1 ≤ bs.length ∧ bs.length ≤ 32)
      ∧ (ds.filterMap label?).Nodup := by
  induction ds using List.reverseRecOn with
  | nil => exact iff_of_true noneWrong_nil ⟨fun _ h => absurd h List.not_mem_nil, .nil⟩
  | append_singleton ds d ih =>
    have hpushes : (∀ bs, .pushBytes bs ∈ ds ++ [d] → 1 ≤ bs.length ∧ bs.length ≤ 32)
        ↔ (∀ bs, .pushBytes bs ∈ ds → 1 ≤ bs.length ∧ bs.length ≤ 32)
          ∧ ∀ bs, d = .pushBytes bs → 1 ≤ bs.length ∧ bs.length ≤ 32 := by
      rw [← forall_and]
      refine forall_congr' fun bs => ?_
      rw [List.mem_append, List.mem_singleton, or_imp, eq_comm]
    rw [noneWrong_concat_iff, ih, forall_not_defective_iff, defect?_eq_none_iff, hpushes,
      nodup_filterMap_label?_concat_iff]
    exact and_and_and_comm

/-- Directives that refer to no label are spelled as they are. -/
theorem assemble_of_no_references
    (hpushes : ∀ bs, .pushBytes bs ∈ ds → 1 ≤ bs.length ∧ bs.length ≤ 32)
    (hlabels : (ds.filterMap label?).Nodup) (hreferences : ds.filterMap reference? = []) :
    assemble ds = .ok (ds.flatMap (spelled fun _ => 0)) := by
  have hreferences := List.filterMap_eq_nil_iff.mp hreferences
  have hdefects := noneWrong_defective_iff.mpr ⟨hpushes, hlabels⟩
  have hresolved : NoneWrong (fun _ => Unresolved ds) ds :=
    noneWrong_const_iff.mpr fun d hd => not_unresolved_of_resolves hdefects fun label hlabel => by
      cases hlabel.symm.trans (hreferences d hd)
  rw [assemble_of_resolved hdefects hresolved]
  exact congrArg Except.ok (List.flatMap_congr fun d hd =>
    spelled_of_reference?_eq_none (hreferences d hd) _ _)

/-- There is code just if nothing is wrong in either pass. -/
theorem exists_assemble_eq_ok_iff :
    (∃ code, assemble ds = .ok code)
      ↔ NoneWrong Defective ds ∧ NoneWrong (fun _ => Unresolved ds) ds := by
  constructor
  · rintro ⟨code, hcode⟩
    have hdefects : NoneWrong Defective ds := noneWrong_iff.mpr fun e he => by
      cases hcode.symm.trans (assemble_of_firstWrong he)
    refine ⟨hdefects, noneWrong_iff.mpr fun e he => ?_⟩
    cases hcode.symm.trans (assemble_of_firstUnresolved hdefects he)
  · exact fun h => ⟨_, assemble_of_resolved h.1 h.2⟩

/-- **Which error there is.** -/
theorem assemble_eq_error_iff {e : AssemblerError} :
    assemble ds = .error e ↔ FirstWrong Defective ds e
      ∨ NoneWrong Defective ds ∧ FirstWrong (fun _ => Unresolved ds) ds e := by
  constructor
  · intro herror
    by_cases hdefects : NoneWrong Defective ds
    · have hresolved : ¬ NoneWrong (fun _ => Unresolved ds) ds := by
        intro hresolved
        cases herror.symm.trans (assemble_of_resolved hdefects hresolved)
      rw [noneWrong_iff, not_forall_not] at hresolved
      obtain ⟨e', he'⟩ := hresolved
      cases herror.symm.trans (assemble_of_firstUnresolved hdefects he')
      exact .inr ⟨hdefects, he'⟩
    · rw [noneWrong_iff, not_forall_not] at hdefects
      obtain ⟨e', he'⟩ := hdefects
      cases herror.symm.trans (assemble_of_firstWrong he')
      exact .inl he'
  · rintro (he | ⟨hdefects, he⟩)
    · exact assemble_of_firstWrong he
    · exact assemble_of_firstUnresolved hdefects he

/-- What is spelled at the place of a label is its mark. -/
theorem getElem?_spelled_of_labelAt {place : String → Nat} {label : String} {q : Nat}
    (h : NoneWrong Defective ds) (hlabel : LabelAt ds label q) :
    (ds.flatMap (spelled place))[q]? = some jumpDestByte := by
  obtain ⟨i, hi, rfl⟩ := hlabel
  obtain ⟨hlt, hget⟩ := List.getElem?_eq_some_iff.mp hi
  have hsplit : ds.flatMap (spelled place) = (ds.take i).flatMap (spelled place)
      ++ (jumpDestByte :: (ds.drop (i + 1)).flatMap (spelled place)) := by
    conv_lhs => rw [← List.take_append_drop i ds, List.flatMap_append]
    rw [List.drop_eq_getElem_cons hlt, hget]
    rfl
  rw [Assembly.place_eq_length_spelled h place, hsplit,
    List.getElem?_append_right (Nat.le_refl _), Nat.sub_self]
  rfl

end Passes

/-! ## Assembling -/

open Directive in
/-- **Code is assembled exactly as it is written down.** There is code just
if each push has one to thirty-two bytes, no label stands twice, and each
label that is referred to stands where two bytes reach. It is as long as what
the directives emit and differs from it only in the references, which hold
the places of their labels. Each directive is at the place it was followed
at, and each label has its mark. Where there is no code, the error is for the
first push or label that is wrong, and if there is none it is for the first
reference that is not resolved. -/
theorem assembles_exactly (ds : List Directive) :
    ((∃ code, assemble ds = .ok code) ↔
        (∀ bs, .pushBytes bs ∈ ds → 1 ≤ bs.length ∧ bs.length ≤ 32)
        ∧ (ds.filterMap label?).Nodup
        ∧ ∀ label ∈ ds.filterMap reference?, ∃ q ≤ 65535, LabelAt ds label q)
    ∧ (∀ code, assemble ds = .ok code →
        code.length = (ds.foldl Assembly.follow .empty).offset
        ∧ (ds.foldl Assembly.follow .empty).code.toList = ds.flatMap (spelled fun _ => 0)
        ∧ (∃ place : String → Nat, (∀ label q, LabelAt ds label q → place label = q)
          ∧ code = ds.flatMap (spelled place)
          ∧ ∀ i, Directive.place ds i = ((ds.take i).flatMap (spelled place)).length)
        ∧ ∀ label q, LabelAt ds label q → code[q]? = some jumpDestByte)
    ∧ ∀ e, assemble ds = .error e ↔
        FirstWrong Defective ds e
        ∨ NoneWrong Defective ds ∧ FirstWrong (fun _ => Unresolved ds) ds e := by
  refine ⟨?_, ?_, fun e => assemble_eq_error_iff⟩
  · rw [exists_assemble_eq_ok_iff, ← and_assoc, ← noneWrong_defective_iff]
    exact and_congr_right noneWrong_unresolved_iff
  · intro code hcode
    obtain ⟨hdefects, hresolved⟩ := exists_assemble_eq_ok_iff.mp ⟨code, hcode⟩
    have hplaces := Assembly.place_eq_length_spelled hdefects
    have hemitted := (Assembly.emitted_of_noneWrong hdefects).1
    have hspelled := hcode.symm.trans (assemble_of_resolved hdefects hresolved)
    cases hspelled
    refine ⟨?_, hemitted, ⟨_, fun label q hlabel => ?_, rfl, hplaces _⟩, fun label q hlabel => ?_⟩
    · rw [Assembly.offset, ← Array.length_toList, hemitted]
      exact length_flatMap_spelled _ _ _
    · rw [Assembly.placeIn, (Assembly.lookup_labels_eq_some_iff
        (Assembly.error?_eq_none_iff.mpr hdefects) label q).mpr hlabel]
      rfl
    · exact getElem?_spelled_of_labelAt hdefects hlabel

open Directive in
/-- A jump over a byte that looks like a push lands behind it, at the place
that the same label has further on; and of two labels alike the second is
what is wrong, even behind a reference to no label. -/
theorem assembles_exactly_around_raw_byte :
    (∃ place : String → Nat, place "on" = 5
      ∧ [0x61, 0, 5, 0x56, 0x61, 0x5b, 0x61, 0, 5]
        = [Directive.jump "on", .raw [0x61], .label "on", .pushLabel "on"].flatMap
          (spelled place))
    ∧ assemble [.pushLabel "off", .label "on", .label "on", .pushBytes []]
      = .error (.duplicateLabel "on") := by
  constructor
  · obtain ⟨-, -, ⟨place, hplace, hcode, -⟩, -⟩ :=
      (assembles_exactly [.jump "on", .raw [0x61], .label "on", .pushLabel "on"]).2.1 _ rfl
    exact ⟨place, hplace "on" 5 ⟨2, rfl, rfl⟩, hcode⟩
  · have hfront : NoneWrong Defective [.pushLabel "off", .label "on"] :=
      noneWrong_defective_iff.mpr ⟨by simp, by decide⟩
    exact ((assembles_exactly _).2.2 _).mpr (.inl ⟨_, .label "on", _, rfl, hfront, rfl⟩)

end EthCall.Evm
