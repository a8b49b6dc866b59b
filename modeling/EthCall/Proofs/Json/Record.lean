import EthCall.Json.Record
import EthCall.Proofs.Json.Reader

/-!
# Written records

The fields of a record are found where they were written, as long as no
two of them have one name (`Json.fields?_record`). Some of them may be
missing, and then it is the same for those that are given, in any order
(`Json.fields?_record_map`); the others have their defaults
(`Json.optional?_given`). What is in a list is read if each of the items is
(`Json.asList?_array_map`).
-/

namespace EthCall.Json

variable {α β : Type} {xs : List α}

/-! ## Lists -/

/-- What succeeds everywhere has a list of results. -/
theorem mapM_eq_some {f : α → Option β} {g : α → β} (h : ∀ x ∈ xs, f x = some (g x)) :
    xs.mapM f = some (xs.map g) := by
  induction xs with
  | nil => rfl
  | cons x xs ih =>
    obtain ⟨hx, hxs⟩ := List.forall_mem_cons.mp h
    rw [List.mapM_cons, hx, ih hxs]
    rfl

/-- **A list is read item by item.** -/
theorem asList?_array_map {read : Json → Option α} {write : α → Json}
    (h : ∀ x ∈ xs, read (write x) = some x) :
    asList? read (.array (xs.map write)) = some xs := by
  have hread : (xs.map write).mapM read = some (xs.map id) := by
    rw [List.mapM_map]
    exact mapM_eq_some h
  rwa [List.map_id] at hread

/-! ## Fields -/

variable {members : List (String × Json)}

/-- Texts are the names of members. -/
theorem namedMembers?_map (members : List (String × Json)) :
    namedMembers? (members.map fun m => (some m.1, m.2)) = some members := by
  have hread : (members.map fun m => (some m.1, m.2)).mapM
      (fun m : Text × Json => m.1.map fun name => (name, m.2)) = some (members.map id) := by
    rw [List.mapM_map]
    exact mapM_eq_some fun _ _ => rfl
  rwa [List.map_id] at hread

/-- No other member has the name of a member. -/
theorem filter_name_eq (hnames : (members.map Prod.fst).Nodup) {m : String × Json}
    (hm : m ∈ members) : (members.filter fun n => n.1 = m.1) = [m] := by
  obtain ⟨front, back, rfl⟩ := List.append_of_mem hm
  rw [List.map_append, List.map_cons, List.nodup_middle, List.nodup_cons,
    ← List.map_append] at hnames
  have hother : ∀ n ∈ front ++ back, n.1 ≠ m.1 := fun n hn h =>
    hnames.1 (h ▸ List.mem_map_of_mem hn)
  obtain ⟨hfront, hback⟩ := List.forall_mem_append.mp hother
  rw [List.filter_append, List.filter_cons_of_pos (by simp), List.filter_eq_nil_iff.mpr,
    List.filter_eq_nil_iff.mpr, List.nil_append]
  · simpa using hback
  · simpa using hfront

/-- **The fields of a record are found**, each under its name. -/
theorem fields?_record (hnames : (members.map Prod.fst).Nodup) :
    (record members).fields? (members.map Prod.fst) = some (members.map fun m => some m.2) := by
  unfold record fields?
  dsimp only
  rw [namedMembers?_map, Option.bind_eq_bind, Option.bind_some, List.mapM_map]
  refine mapM_eq_some fun m hm => ?_
  rw [Function.comp_apply, filter_name_eq hnames hm]

/-- **Every name is looked up**, whether there is a member of that name or
not. -/
theorem fields?_record_lookup (hnames : (members.map Prod.fst).Nodup) (names : List String) :
    (record members).fields? names = some (names.map fun name => members.lookup name) := by
  unfold record fields?
  dsimp only
  rw [namedMembers?_map, Option.bind_eq_bind, Option.bind_some]
  refine mapM_eq_some fun name _ => ?_
  cases hlookup : members.lookup name with
  | none =>
    have hnone : (members.filter fun m => m.1 = name) = [] := by
      rw [List.filter_eq_nil_iff]
      intro m hm
      have hne := List.lookup_eq_none_iff.mp hlookup m hm
      rw [bne_iff_ne] at hne
      exact fun h => hne (of_decide_eq_true h).symm
    rw [hnone]
  | some value =>
    obtain ⟨front, back, rfl, -⟩ := List.lookup_eq_some_iff.mp hlookup
    rw [filter_name_eq hnames (m := (name, value)) (by simp)]

/-! ## Fields that may be missing -/

/-- Names by which all fields are found are different. -/
theorem injective_of_find? {name : α → String} (all : List α)
    (h : ∀ f, (all.find? fun g => name g = name f) = some f) :
    Function.Injective name := by
  intro f g hname
  have hf := h f
  rw [hname, h g] at hf
  exact (Option.some.inj hf).symm

section Given

variable {ι : Type} [DecidableEq ι] {name : ι → String} {value : ι → Json} {all fs : List ι}
  {f : ι} {i : Nat} {default v : α} {read : Json → Option α}

/-- What there is of all fields, if only some of them are given. -/
def given (all fs : List ι) (value : ι → Json) : List (Option Json) :=
  all.map fun f => if f ∈ fs then some (value f) else none

/-- A field is looked up by its name. -/
theorem lookup_map (hinj : Function.Injective name) (fs : List ι) (f : ι) :
    (fs.map fun g => (name g, value g)).lookup (name f)
      = if f ∈ fs then some (value f) else none := by
  induction fs with
  | nil => rfl
  | cons g fs ih =>
    rw [List.map_cons, List.lookup_cons, ih]
    by_cases hfg : f = g
    · subst hfg
      simp
    · rw [beq_eq_false_iff_ne.mpr (hinj.ne hfg)]
      simp [hfg]

/-- **The fields that are given are found**, in whatever order. -/
theorem fields?_record_map (hinj : Function.Injective name) (hfs : fs.Nodup) (all : List ι) :
    (record (fs.map fun f => (name f, value f))).fields? (all.map name)
      = some (given all fs value) := by
  have hnames : ((fs.map fun f => (name f, value f)).map Prod.fst).Nodup := by
    rw [List.map_map]
    exact hfs.map hinj
  rw [fields?_record_lookup hnames, List.map_map]
  simp only [Function.comp_def, lookup_map hinj]
  rfl

/-- A field is read if it is given, and has its default if not. -/
theorem optional?_given (hi : all[i]? = some f) :
    optional? (given all fs value) i default read
      = if f ∈ fs then read (value f) else some default := by
  unfold optional? given
  rw [List.getElem?_map, hi, Option.map_some]
  by_cases hf : f ∈ fs
  · rw [if_pos hf, if_pos hf]
  · rw [if_neg hf, if_neg hf]

/-- A field that can be read replaces its default. -/
theorem optional?_given_eq_some (hi : all[i]? = some f) (hread : f ∈ fs → read (value f) = some v) :
    optional? (given all fs value) i default read = some (if f ∈ fs then v else default) := by
  rw [optional?_given hi]
  by_cases hf : f ∈ fs
  · rw [if_pos hf, if_pos hf, hread hf]
  · rw [if_neg hf, if_neg hf]

end Given

/-! ## Writable values -/

/-- A list is writable if all its items are. -/
theorem isWritable_array_map {write : α → Json} (h : ∀ x, (write x).IsWritable) :
    (array (xs.map write)).IsWritable := by
  refine .array fun j hj => ?_
  obtain ⟨x, -, rfl⟩ := List.mem_map.mp hj
  exact h x

/-- **A record is writable** if all its fields are. -/
theorem isWritable_record (h : ∀ m ∈ members, m.2.IsWritable) : (record members).IsWritable := by
  refine .object (fun m hm => ?_) fun m hm => ?_
  · obtain ⟨m, -, rfl⟩ := List.mem_map.mp hm
    rfl
  · obtain ⟨n, hn, rfl⟩ := List.mem_map.mp hm
    exact h n hn

end EthCall.Json
