import Arboql.Ast.Visits

/-!
# The dictionary of an AST

`ast_to_dict` first sets the key `"type"` to the name of the class and then every
field in turn, so a field that is itself called `"type"` replaces the name of
the class where it stands. What comes out is the tag followed by the other
fields in order (`astToDict_eq`).

A signature says which fields each class has and what each field holds. An
optional field that holds a node may also hold another leaf than a string, which
is how Python writes an absent node.
-/

namespace Arboql

variable {α : Type}

/-! ### Tag and remaining fields -/

/-- The fields but for one called `"type"`. -/
def otherFields {β : Type} (fields : List (String × β)) : List (String × β) :=
  fields.filter fun f => f.1 ≠ "type"

/-- The field called `"type"`. -/
def typeField {β : Type} (fields : List (String × β)) : Option β :=
  (fields.find? fun f => f.1 = "type").map Prod.snd

/-- The value under the key `"type"`. -/
def tagValue (cls : String) (fields : List (String × AstField α)) : Value α :=
  ((typeField fields).map fieldToValue).getD (.str cls)

/-- The items for some fields. -/
def fieldItems (fields : List (String × AstField α)) : List (String × Value α) :=
  fields.map fun f => (f.1, fieldToValue f.2)

theorem typeField_cons_of_ne {β : Type} {name : String} (h : name ≠ "type") (x : β)
    (fields : List (String × β)) : typeField ((name, x) :: fields) = typeField fields := by
  unfold typeField
  rw [List.find?_cons_of_neg (by simpa using h)]

theorem typeField_eq_none {β : Type} {fields : List (String × β)}
    (h : "type" ∉ fields.map Prod.fst) : typeField fields = none := by
  unfold typeField
  rw [Option.map_eq_none_iff, List.find?_eq_none]
  intro f hf hname
  exact h (List.mem_map.mpr ⟨f, hf, by simpa using hname⟩)

theorem mem_of_typeField {β : Type} {fields : List (String × β)} {x : β}
    (h : typeField fields = some x) : ("type", x) ∈ fields := by
  obtain ⟨f, hf, rfl⟩ := Option.map_eq_some_iff.mp h
  have hname : f.1 = "type" := by simpa using List.find?_some hf
  rw [← hname]
  exact List.mem_of_find?_eq_some hf

theorem tagValue_of_none {fields : List (String × AstField α)} (h : typeField fields = none)
    (cls : String) : tagValue cls fields = .str cls := by
  rw [tagValue, h]
  rfl

theorem tagValue_of_some {fields : List (String × AstField α)} {value : AstField α}
    (h : typeField fields = some value) (cls : String) :
    tagValue cls fields = fieldToValue value := by
  rw [tagValue, h]
  rfl

theorem otherFields_cons_of_ne {β : Type} {name : String} (h : name ≠ "type") (x : β)
    (fields : List (String × β)) :
    otherFields ((name, x) :: fields) = (name, x) :: otherFields fields :=
  List.filter_cons_of_pos (by simpa using h)

theorem otherFields_cons_type {β : Type} (x : β) (fields : List (String × β)) :
    otherFields (("type", x) :: fields) = otherFields fields :=
  List.filter_cons_of_neg (by simp)

/-! ### Fields side by side -/

section SameNames

variable {β γ : Type} {r : β → γ → Prop} {fields : List (String × β)} {fs : List (String × γ)}

/-- The same names in the same order, and what they hold is related. -/
def SameNames (r : β → γ → Prop) (fields : List (String × β)) (fs : List (String × γ)) : Prop :=
  List.Forall₂ (fun field f => field.1 = f.1 ∧ r field.2 f.2) fields fs

theorem SameNames.map_fst (h : SameNames r fields fs) :
    fields.map Prod.fst = fs.map Prod.fst := by
  induction h with
  | nil => rfl
  | cons hhead _ ih => rw [List.map_cons, List.map_cons, hhead.1, ih]

theorem SameNames.otherFields (h : SameNames r fields fs) :
    SameNames r (otherFields fields) (otherFields fs) := by
  induction h with
  | nil => exact .nil
  | @cons field f fields fs hhead _ ih =>
    obtain ⟨name, value⟩ := field
    obtain ⟨name', x⟩ := f
    obtain ⟨rfl, hvalue⟩ := hhead
    by_cases htype : name = "type"
    · subst htype
      rw [otherFields_cons_type, otherFields_cons_type]
      exact ih
    · rw [otherFields_cons_of_ne htype, otherFields_cons_of_ne htype]
      exact .cons ⟨rfl, hvalue⟩ ih

/-- The field called `"type"` is on both sides or on neither. -/
theorem SameNames.typeField (h : SameNames r fields fs) :
    (typeField fields = none ∧ typeField fs = none)
      ∨ ∃ value x, typeField fields = some value ∧ typeField fs = some x ∧ r value x := by
  induction h with
  | nil => exact Or.inl ⟨rfl, rfl⟩
  | @cons field f fields fs hhead _ ih =>
    obtain ⟨name, value⟩ := field
    obtain ⟨name', x⟩ := f
    obtain ⟨rfl, hvalue⟩ := hhead
    by_cases htype : name = "type"
    · subst htype
      exact Or.inr ⟨value, x, rfl, rfl, hvalue⟩
    · rw [typeField_cons_of_ne htype, typeField_cons_of_ne htype]
      exact ih

end SameNames

/-! ### The loop over the fields -/

/-- The loop over the fields, once the tag and some fields are set. -/
theorem fieldsToDict_eq (fields : List (String × AstField α)) (tag : Value α)
    (done : List (String × Value α)) (hdone : "type" ∉ done.map Prod.fst)
    (hnodup : (done.map Prod.fst ++ fields.map Prod.fst).Nodup) :
    fieldsToDict (("type", tag) :: done) fields
      = ("type", ((typeField fields).map fieldToValue).getD tag)
        :: (done ++ fieldItems (otherFields fields)) := by
  match fields with
  | [] => simp [fieldsToDict, typeField, otherFields, fieldItems]
  | (name, value) :: fields =>
    rw [List.map_cons] at hnodup
    have hrest := List.nodup_append.mp hnodup
    obtain ⟨hfresh, hfields⟩ := List.nodup_cons.mp hrest.2.1
    have hname : name ∉ done.map Prod.fst := fun hmem =>
      hrest.2.2 name hmem name List.mem_cons_self rfl
    by_cases htype : name = "type"
    · -- the field takes the place of the class name
      subst htype
      have hset : dictSet (("type", tag) :: done) "type" (fieldToValue value)
          = ("type", fieldToValue value) :: done := by
        unfold dictSet OrderedDict.setItems
        rw [if_pos (by simp), List.map_cons, if_pos rfl]
        congr 1
        refine (List.map_congr_left fun p hp => if_neg fun heq => hdone ?_).trans (List.map_id done)
        exact List.mem_map.mpr ⟨p, hp, heq⟩
      have hnodup' : (done.map Prod.fst ++ fields.map Prod.fst).Nodup :=
        hnodup.sublist (List.Sublist.append_left (List.sublist_cons_self _ _) _)
      rw [fieldsToDict, hset, fieldsToDict_eq fields _ done hdone hnodup', otherFields_cons_type,
        typeField_eq_none hfresh]
      rfl
    · -- any other field is appended
      have hset : dictSet (("type", tag) :: done) name (fieldToValue value)
          = ("type", tag) :: (done ++ [(name, fieldToValue value)]) := by
        unfold dictSet OrderedDict.setItems
        rw [if_neg (by simpa [htype] using hname), List.cons_append]
      have hdone' : "type" ∉ (done ++ [(name, fieldToValue value)]).map Prod.fst := by
        simpa [Ne.symm htype] using hdone
      rw [fieldsToDict, hset, fieldsToDict_eq fields tag _ hdone' (by simpa using hnodup),
        typeField_cons_of_ne htype, otherFields_cons_of_ne htype, List.append_assoc]
      rfl

/-- **The dictionary of an AST**: the tag, then the other fields in order. -/
theorem astToDict_eq {cls : String} {fields : List (String × AstField α)}
    (h : (fields.map Prod.fst).Nodup) :
    astToDict (.node cls fields)
      = .dict (("type", tagValue cls fields) :: fieldItems (otherFields fields)) := by
  rw [astToDict, fieldsToDict_eq fields _ [] (by simp) (by simpa using h), List.nil_append,
    tagValue]

/-! ### The size of the dictionary -/

theorem fieldsToDict_ne_nil {items : List (String × Value α)} (h : items ≠ [])
    (fields : List (String × AstField α)) : fieldsToDict items fields ≠ [] := by
  match fields with
  | [] => exact h
  | (field, value) :: fields =>
    -- an assignment leaves at least as many items
    refine fieldsToDict_ne_nil ?_ fields
    unfold dictSet OrderedDict.setItems
    split
    · simpa using h
    · simp

/-- The dictionary of an AST makes a node for its tag. -/
theorem size_astToDict_pos (t : Ast α) : 0 < size (astToDict t) := by
  obtain ⟨cls, fields⟩ := t
  rw [astToDict, size]
  have hne : [("type", (.str cls : Value α))] ≠ [] := by simp
  obtain ⟨⟨key, value⟩, items, h⟩ := List.exists_cons_of_ne_nil (fieldsToDict_ne_nil hne fields)
  rw [h, sizeItems]
  omega

theorem size_astToDict {cls : String} {fields : List (String × AstField α)}
    (h : (fields.map Prod.fst).Nodup) :
    size (astToDict (.node cls fields))
      = 1 + size (tagValue cls fields) + sizeItems (fieldItems (otherFields fields)) := by
  rw [astToDict_eq h, size, sizeItems]

theorem size_itemToValue_pos (item : AstItem α) : 0 < size (itemToValue item) := by
  cases item with
  | ast t =>
    rw [itemToValue]
    exact size_astToDict_pos t
  | str s => exact Nat.one_pos
  | other a => exact Nat.one_pos

theorem AstItem.ast_or_leaf (item : AstItem α) :
    (∃ t, item = .ast t) ∨ ∀ t, item ≠ .ast t := by
  cases item with
  | ast t => exact Or.inl ⟨t, rfl⟩
  | str s => exact Or.inr fun t => nofun
  | other a => exact Or.inr fun t => nofun

theorem size_leaf {item : AstItem α} (h : ∀ t, item ≠ .ast t) : size (itemToValue item) = 1 := by
  cases item with
  | ast t => exact absurd rfl (h t)
  | str s => rfl
  | other a => rfl

/-! ### Signatures -/

/-- What a field holds. -/
inductive FieldKind
  | node
  | list
  | leaf
  deriving DecidableEq

/-- **A signature of AST classes.** Each class has its own field names once, in
order, with what each field holds. -/
structure Signature where
  fields : String → Option (List (String × FieldKind))
  nodup : ∀ cls fs, fields cls = some fs → (fs.map Prod.fst).Nodup

/-- A string that does not start with an underscore. -/
def Plain (s : String) : Prop := s.toList.head? ≠ some '_'

instance (s : String) : Decidable (Plain s) := inferInstanceAs (Decidable (_ ≠ _))

namespace Signature

variable (S : Signature)

mutual

/-- **An AST over the signature** whose string leaves do not start with an
underscore. -/
def Fits : Ast α → Prop
  | .node cls fields => ∃ fs, S.fields cls = some fs ∧ FitsFields fields fs

/-- The fields have the names and the kinds that the class gives them. -/
def FitsFields : List (String × AstField α) → List (String × FieldKind) → Prop
  | [], [] => True
  | (name, value) :: fields, (name', kind) :: fs =>
    name = name' ∧ FitsField value kind ∧ FitsFields fields fs
  | _, _ => False

def FitsField : AstField α → FieldKind → Prop
  | .one item, .node => FitsItem item ∧ ∀ s, item ≠ .str s
  | .one item, .leaf => FitsItem item ∧ ∀ t, item ≠ .ast t
  | .list items, .list => FitsItems items
  | _, _ => False

def FitsItems : List (AstItem α) → Prop
  | [] => True
  | item :: items => FitsItem item ∧ FitsItems items

def FitsItem : AstItem α → Prop
  | .ast t => Fits t
  | .str s => Plain s
  | .other _ => True

end

/-- Some class has a list field. -/
def HasList : Prop := ∃ cls fs name, S.fields cls = some fs ∧ (name, .list) ∈ fs

/-- Some class has a field. -/
def HasField : Prop := ∃ cls fs, S.fields cls = some fs ∧ fs ≠ []

variable {S}

theorem fitsFields_iff {fields : List (String × AstField α)} {fs : List (String × FieldKind)} :
    S.FitsFields fields fs ↔ SameNames S.FitsField fields fs := by
  unfold SameNames
  match fields, fs with
  | [], [] => exact iff_of_true trivial .nil
  | (name, value) :: fields, (name', kind) :: fs =>
    rw [FitsFields, List.forall₂_cons, fitsFields_iff, and_assoc]
    rfl
  | [], _ :: _ => exact iff_of_false id nofun
  | _ :: _, [] => exact iff_of_false id nofun

theorem FitsFields.map_fst {fields : List (String × AstField α)}
    {fs : List (String × FieldKind)} (h : S.FitsFields fields fs) :
    fields.map Prod.fst = fs.map Prod.fst :=
  (fitsFields_iff.mp h).map_fst

/-- An AST over the signature has each field once. -/
theorem FitsFields.nodup {cls : String} {fields : List (String × AstField α)}
    {fs : List (String × FieldKind)} (h : S.FitsFields fields fs)
    (hfs : S.fields cls = some fs) : (fields.map Prod.fst).Nodup := by
  rw [h.map_fst]
  exact S.nodup cls fs hfs

theorem FitsFields.otherFields {fields : List (String × AstField α)}
    {fs : List (String × FieldKind)} (h : S.FitsFields fields fs) :
    S.FitsFields (otherFields fields) (Arboql.otherFields fs) :=
  fitsFields_iff.mpr (fitsFields_iff.mp h).otherFields

theorem FitsFields.otherFields_eq_nil_iff {fields : List (String × AstField α)}
    {fs : List (String × FieldKind)} (h : S.FitsFields fields fs) :
    Arboql.otherFields fields = [] ↔ Arboql.otherFields fs = [] := by
  rw [← List.map_eq_nil_iff (f := Prod.fst), h.otherFields.map_fst, List.map_eq_nil_iff]

/-- The field called `"type"` has its kind, and is there if the class has it. -/
theorem FitsFields.typeField {fields : List (String × AstField α)}
    {fs : List (String × FieldKind)} (h : S.FitsFields fields fs) :
    (typeField fields = none ∧ Arboql.typeField fs = none)
      ∨ ∃ value kind, typeField fields = some value ∧ Arboql.typeField fs = some kind
        ∧ S.FitsField value kind :=
  (fitsFields_iff.mp h).typeField

/-- Fields with the same names, each once, are the same when the field called
`"type"` and the others are. -/
theorem fields_ext {β : Type} {fields fields' : List (String × β)}
    (hnames : fields.map Prod.fst = fields'.map Prod.fst)
    (hnodup : (fields.map Prod.fst).Nodup)
    (htype : Arboql.typeField fields = Arboql.typeField fields')
    (hother : Arboql.otherFields fields = Arboql.otherFields fields') : fields = fields' := by
  induction fields generalizing fields' with
  | nil => exact (List.map_eq_nil_iff.mp hnames.symm).symm
  | cons f fields ih =>
    obtain ⟨name, value⟩ := f
    cases fields' with
    | nil => exact absurd hnames (by simp)
    | cons f' fields' =>
      obtain ⟨name', value'⟩ := f'
      obtain ⟨rfl, hrest⟩ := List.cons.inj hnames
      obtain ⟨hfresh, hnodup'⟩ := List.nodup_cons.mp hnodup
      by_cases hname : name = "type"
      · -- this is the field called `"type"`, so the rest has none
        subst hname
        rw [otherFields_cons_type, otherFields_cons_type] at hother
        have hnone := typeField_eq_none hfresh
        have hnone' := typeField_eq_none (hrest ▸ hfresh)
        obtain rfl : value = value' := Option.some.inj htype
        rw [ih hrest hnodup' (hnone.trans hnone'.symm) hother]
      · rw [otherFields_cons_of_ne hname, otherFields_cons_of_ne hname] at hother
        rw [typeField_cons_of_ne hname, typeField_cons_of_ne hname] at htype
        obtain ⟨hhead, hother⟩ := List.cons.inj hother
        rw [hhead, ih hrest hnodup' htype hother]

end Signature

end Arboql
