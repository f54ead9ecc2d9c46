import Arboql.Ast.Faithful

/-!
# Collisions of the tree encoding

Each way in which a signature can fail to be unambiguous gives two different ASTs
with the same output, so that the encoding is faithful over the unambiguous
signatures and over no others (`faithful_iff_unambiguous`).

The Python grammar is not among them. The body of an `if` without an `else` ends
in an empty list, and the element that follows the `if` hangs from the node of
that list, exactly as if it were the first element in it
(`if_else_collision`).
-/

namespace Arboql

variable {α : Type} [ToString α]

/-- **Faithfulness of the tree encoding.** -/
def Signature.Faithful (S : Signature) (α : Type) [ToString α] : Prop :=
  ∀ t t' : Ast α, S.Fits t → S.Fits t' →
    (astDictToIncidenceListAndAttributes (astToDict t)).Same
      (astDictToIncidenceListAndAttributes (astToDict t')) → t = t'

variable {S : Signature}

/-! ### Values with the same visits -/

/-- Two values that are visited alike. -/
def SameVisits (v v' : Value α) : Prop := ∀ c, visits v c = visits v' c

theorem SameVisits.size_eq {v v' : Value α} (h : SameVisits v v') : size v = size v' := by
  rw [← length_visits v 0, h, length_visits]

/-- Items with the same keys and with values that are visited alike. -/
theorem visitsItems_congr {items items' : List (String × Value α)}
    (h : SameNames SameVisits items items')
    (owner c : ℕ) : visitsItems items owner c = visitsItems items' owner c := by
  induction h generalizing c with
  | nil => rfl
  | @cons i i' items items' hi _ ih =>
    obtain ⟨key, value⟩ := i
    obtain ⟨key', value'⟩ := i'
    obtain ⟨hkey, hvalue⟩ := hi
    dsimp only at hkey hvalue
    subst hkey
    rw [visitsItems, visitsItems, hvalue, hvalue.size_eq, ih]

/-! ### ASTs built from a signature -/

/-- Fields with the given names. -/
def build (fs : List (String × FieldKind)) (g : String × FieldKind → AstField α) :
    List (String × AstField α) :=
  fs.map fun f => (f.1, g f)

/-- A field that holds the one leaf `a`. -/
def holding (a : α) : FieldKind → AstField α
  | .node => .one (.other a)
  | .list => .list [.other a]
  | .leaf => .one (.other a)

theorem visits_holding (a : α) (kind : FieldKind) (c : ℕ) :
    visits (fieldToValue (holding a kind)) c = [(c, otherLabel a)] := by
  cases kind <;> rfl

omit [ToString α] in
theorem fits_holding (a : α) (kind : FieldKind) : S.FitsField (holding a kind) kind := by
  cases kind with
  | node => exact ⟨trivial, fun s => nofun⟩
  | list => exact ⟨trivial, trivial⟩
  | leaf => exact ⟨trivial, fun t => nofun⟩

/-- A field that holds `value` under one name and one default leaf under the others. -/
def holdingAt [Inhabited α] (name : String) (value : AstField α) (f : String × FieldKind) :
    AstField α :=
  if f.1 = name then value else holding default f.2

section Build

variable {fs : List (String × FieldKind)} {g g' : String × FieldKind → AstField α}

omit [ToString α] in
theorem build_inj (h : build fs g = build fs g') : ∀ f ∈ fs, g f = g' f := by
  intro f hf
  exact (Prod.mk.inj (List.map_eq_map_iff.mp h f hf)).2

omit [ToString α] in
theorem map_fst_build : (build fs g).map Prod.fst = fs.map Prod.fst := by
  unfold build
  rw [List.map_map]
  rfl

omit [ToString α] in
theorem fits_build (h : ∀ f ∈ fs, S.FitsField (g f) f.2) : S.FitsFields (build fs g) fs := by
  induction fs with
  | nil => exact trivial
  | cons f fs ih =>
    obtain ⟨name, kind⟩ := f
    exact ⟨rfl, h _ List.mem_cons_self, ih fun f hf => h f (List.mem_cons_of_mem _ hf)⟩

omit [ToString α] in
theorem fits_holdingAt [Inhabited α] {cls name : String} {kind : FieldKind} {value : AstField α}
    (hfs : S.fields cls = some fs) (hmem : (name, kind) ∈ fs) (hfit : S.FitsField value kind) :
    ∀ f ∈ fs, S.FitsField (holdingAt name value f) f.2 := by
  intro f hf
  unfold holdingAt
  by_cases hname : f.1 = name
  · have heq : f = (name, kind) := List.inj_on_of_nodup_map (S.nodup cls fs hfs) hf hmem hname
    rw [if_pos hname, heq]
    exact hfit
  · rw [if_neg hname]
    exact fits_holding default f.2

omit [ToString α] in
theorem otherFields_build : otherFields (build fs g) = build (otherFields fs) g := by
  unfold otherFields build
  rw [List.filter_map]
  rfl

omit [ToString α] in
theorem typeField_build :
    typeField (build fs g) = (typeField fs).map fun kind => g ("type", kind) := by
  induction fs with
  | nil => rfl
  | cons f fs ih =>
    obtain ⟨name, kind⟩ := f
    by_cases htype : name = "type"
    · subst htype
      rfl
    · exact (typeField_cons_of_ne htype _ _).trans
        (ih.trans (congrArg _ (typeField_cons_of_ne htype kind fs).symm))

omit [ToString α] in
/-- The dictionary of an AST that is built from its class. -/
theorem astToDict_build {cls : String} (hfs : S.fields cls = some fs) :
    astToDict (.node cls (build fs g))
      = .dict (("type", tagValue cls (build fs g))
        :: fieldItems (build (otherFields fs) g)) := by
  have hnodup : ((build fs g).map Prod.fst).Nodup := map_fst_build ▸ S.nodup cls fs hfs
  rw [astToDict_eq hnodup, otherFields_build]

/-- The visits of an AST that is built from its class. -/
theorem visits_build {cls : String} (hfs : S.fields cls = some fs) (c : ℕ) :
    visits (astToDict (.node cls (build fs g))) c
      = visitsItems (("type", tagValue cls (build fs g)) :: fieldItems (build (otherFields fs) g))
          c c := by
  rw [astToDict_build hfs, visits]

/-- ASTs with tags and other fields that are visited alike are visited alike. -/
theorem sameVisits_ast {cls cls' : String} {fs' : List (String × FieldKind)}
    (hfs : S.fields cls = some fs) (hfs' : S.fields cls' = some fs')
    (htag : SameVisits (tagValue cls (build fs g)) (tagValue cls' (build fs' g')))
    (hother : SameNames SameVisits (fieldItems (build (otherFields fs) g))
      (fieldItems (build (otherFields fs') g'))) :
    SameVisits (astToDict (.node cls (build fs g))) (astToDict (.node cls' (build fs' g'))) := by
  intro c
  rw [visits_build hfs, visits_build hfs']
  refine visitsItems_congr (List.Forall₂.cons ?_ hother) c c
  exact ⟨rfl, htag⟩

/-- ASTs of one class whose fields are visited alike are visited alike. -/
theorem sameVisits_class {cls : String} (hfs : S.fields cls = some fs)
    (h : ∀ f ∈ fs, SameVisits (fieldToValue (g f)) (fieldToValue (g' f))) :
    SameVisits (astToDict (.node cls (build fs g))) (astToDict (.node cls (build fs g'))) := by
  refine sameVisits_ast hfs hfs ?_ ?_
  · intro c
    rw [tagValue, tagValue, typeField_build, typeField_build]
    cases htype : typeField fs with
    | none => rfl
    | some kind => exact h _ (mem_of_typeField htype) c
  · have hsub : ∀ f ∈ otherFields fs, f ∈ fs := fun f hf => List.mem_of_mem_filter hf
    generalize otherFields fs = rest at hsub
    induction rest with
    | nil => exact .nil
    | cons f rest ih =>
      exact .cons ⟨rfl, h f (hsub f List.mem_cons_self)⟩
        (ih fun f hf => hsub f (List.mem_cons_of_mem _ hf))

theorem sameVisits_holdingAt [Inhabited α] {cls name : String} {value value' : AstField α}
    (hfs : S.fields cls = some fs) (h : SameVisits (fieldToValue value) (fieldToValue value')) :
    SameVisits (astToDict (.node cls (build fs (holdingAt name value))))
      (astToDict (.node cls (build fs (holdingAt name value')))) := by
  refine sameVisits_class hfs fun f _ => ?_
  unfold holdingAt
  by_cases hname : f.1 = name
  · rw [if_pos hname, if_pos hname]
    exact h
  · rw [if_neg hname, if_neg hname]
    exact fun _ => rfl

/-- Over a faithful signature, ASTs that are visited alike are equal. -/
theorem Signature.Faithful.eq_of_sameVisits (h : S.Faithful α) {cls cls' : String}
    {fs' : List (String × FieldKind)} (hfs : S.fields cls = some fs)
    (hfs' : S.fields cls' = some fs') (hfit : ∀ f ∈ fs, S.FitsField (g f) f.2)
    (hfit' : ∀ f ∈ fs', S.FitsField (g' f) f.2)
    (hsame : SameVisits (astToDict (.node cls (build fs g)))
      (astToDict (.node cls' (build fs' g')))) :
    cls = cls' ∧ build fs g = build fs' g' :=
  Ast.node.inj (h _ _ ⟨fs, hfs, fits_build hfit⟩ ⟨fs', hfs', fits_build hfit'⟩
    ((same_output_iff _ _).mpr (hsame 0)))

end Build

/-! ### The collisions -/

section Collisions

variable [Inhabited α]

omit [Inhabited α] in
/-- `str` tells leaves apart, or two leaves in one field collide. -/
theorem Signature.Faithful.leaves (h : S.Faithful α) (hfield : S.HasField) :
    Function.Injective (toString : α → String) := by
  obtain ⟨cls, fs, hfs, hne⟩ := hfield
  obtain ⟨⟨name, kind⟩, hmem⟩ := List.exists_mem_of_ne_nil fs hne
  intro a b hab
  have hlabel : otherLabel a = otherLabel b := by rw [otherLabel, hab]; rfl
  -- two ASTs of the class that hold only `a` and only `b`
  have hsame : SameVisits (astToDict (.node cls (build fs fun f => holding a f.2)))
      (astToDict (.node cls (build fs fun f => holding b f.2))) :=
    sameVisits_class hfs fun f _ c => by rw [visits_holding, visits_holding, hlabel]
  obtain ⟨-, hbuild⟩ := h.eq_of_sameVisits hfs hfs (fun f _ => fits_holding a f.2)
    (fun f _ => fits_holding b f.2) hsame
  have hvalue := build_inj hbuild (name, kind) hmem
  cases kind with
  | node => exact AstItem.other.inj (AstField.one.inj hvalue)
  | list => exact AstItem.other.inj (List.cons.inj (AstField.list.inj hvalue)).1
  | leaf => exact AstItem.other.inj (AstField.one.inj hvalue)

omit [Inhabited α] in
/-- Some leaf has the label. -/
theorem exists_leaf {label : String} (h : LeafLabel α label) :
    ∃ item : AstItem α, S.FitsItem item ∧ ∀ c, visits (itemToValue item) c = [(c, label)] := by
  rcases h with hplain | ⟨a, rfl⟩
  · exact ⟨.str label, hplain, fun _ => rfl⟩
  · exact ⟨.other a, trivial, fun _ => rfl⟩

/-- In the presence of lists a class that is written as a tag and a leaf collides
with two leaves of a list. -/
theorem Signature.Faithful.bareClass (h : S.Faithful α) (hlist : S.HasList) {cls : String}
    {fs : List (String × FieldKind)} (hfs : S.fields cls = some fs)
    (hnil : otherFields fs = []) : typeField fs = none ∧ ¬ LeafLabel α cls := by
  by_contra hnot
  -- the class is written as `"type"` and one label, which a leaf can have
  obtain ⟨label, hlabel, hvisits⟩ : ∃ label, LeafLabel α label ∧
      ∀ c, visits (tagValue cls (build fs fun f => holding (default : α) f.2)) c
        = [(c, label)] := by
    cases htype : typeField fs with
    | some kind =>
      -- the field takes the place of the name and holds the leaf
      refine ⟨otherLabel default, Or.inr ⟨default, rfl⟩, fun c => ?_⟩
      rw [tagValue, typeField_build, htype]
      exact visits_holding _ kind c
    | none =>
      refine ⟨cls, by_contra fun hcls => hnot ⟨htype, hcls⟩, fun c => ?_⟩
      rw [tagValue, typeField_build, htype]
      rfl
  obtain ⟨leaf, hleaf, hleafVisits⟩ := exists_leaf (S := S) hlabel
  obtain ⟨cls', fs', name, hfs', hmem⟩ := hlist
  have hbare : S.Fits (.node cls (build fs fun f => holding (default : α) f.2)) :=
    ⟨fs, hfs, fits_build fun f _ => fits_holding default f.2⟩
  -- in a list, the AST is visited like the two strings `"type"` and the label
  have hsame : SameVisits
      (fieldToValue (.list [.ast (.node cls (build fs fun f => holding (default : α) f.2))]))
      (fieldToValue (.list [.str "type", leaf])) := by
    intro c
    change visits (astToDict _) c ++ [] = (c, "type") :: (visits (itemToValue leaf) (c + 1) ++ [])
    rw [visits_build hfs, visitsItems, hvisits, hleafVisits, hnil]
    rfl
  have hfit : S.FitsField
      (.list [.ast (.node cls (build fs fun f => holding (default : α) f.2))]) .list :=
    ⟨hbare, trivial⟩
  have hfit' : S.FitsField (.list [.str "type", leaf]) .list := ⟨plain_type, hleaf, trivial⟩
  obtain ⟨-, hbuild⟩ := h.eq_of_sameVisits hfs' hfs' (fits_holdingAt hfs' hmem hfit)
    (fits_holdingAt hfs' hmem hfit') (sameVisits_holdingAt hfs' hsame)
  have hvalue := build_inj hbuild (name, .list) hmem
  rw [holdingAt, holdingAt, if_pos rfl, if_pos rfl] at hvalue
  cases (List.cons.inj (AstField.list.inj hvalue)).1

omit [Inhabited α] in
/-- Some field of the kind has the label. -/
theorem exists_field {kind : FieldKind} {label : String} (h : kind.CanHold α label) :
    ∃ value : AstField α, S.FitsField value kind
      ∧ ∀ c, visits (fieldToValue value) c = [(c, label)] := by
  have hleaf : LeafLabel α label → ∃ item : AstItem α, S.FitsItem item
      ∧ (∀ t, item ≠ .ast t) ∧ ∀ c, visits (itemToValue item) c = [(c, label)] := by
    rintro (hplain | ⟨a, rfl⟩)
    · exact ⟨.str label, hplain, fun t => nofun, fun _ => rfl⟩
    · exact ⟨.other a, trivial, fun t => nofun, fun _ => rfl⟩
  cases kind with
  | node =>
    obtain ⟨a, rfl⟩ := h
    exact ⟨.one (.other a), ⟨trivial, fun s => nofun⟩, fun _ => rfl⟩
  | leaf =>
    obtain ⟨item, hfit, hne, hvisits⟩ := hleaf h
    exact ⟨.one item, ⟨hfit, hne⟩, hvisits⟩
  | list =>
    obtain ⟨item, hfit, -, hvisits⟩ := hleaf h
    refine ⟨.list [item], ⟨hfit, trivial⟩, fun c => ?_⟩
    change visits (itemToValue item) c ++ [] = _
    rw [hvisits, List.append_nil]

omit [Inhabited α] in
/-- Fields with the same names that each show one and the same label. -/
theorem sameNames_fieldItems {fs fs' : List (String × FieldKind)}
    {g g' : String × FieldKind → AstField α} {label : String}
    (hnames : fs.map Prod.fst = fs'.map Prod.fst)
    (hg : ∀ f ∈ fs, ∀ c, visits (fieldToValue (g f)) c = [(c, label)])
    (hg' : ∀ f ∈ fs', ∀ c, visits (fieldToValue (g' f)) c = [(c, label)]) :
    SameNames SameVisits (fieldItems (build fs g)) (fieldItems (build fs' g')) := by
  induction fs generalizing fs' with
  | nil =>
    obtain rfl := List.map_eq_nil_iff.mp hnames.symm
    exact .nil
  | cons f fs ih =>
    cases fs' with
    | nil => exact absurd hnames (by simp)
    | cons f' fs' =>
      obtain ⟨hname, hnames'⟩ := List.cons.inj hnames
      refine .cons ⟨hname, fun c => ?_⟩ (ih hnames' (fun f hf => hg f (List.mem_cons_of_mem _ hf))
        fun f hf => hg' f (List.mem_cons_of_mem _ hf))
      exact (hg f List.mem_cons_self c).trans (hg' f' List.mem_cons_self c).symm

/-- Two classes with the same other fields collide if both have a field called
`"type"`, or if that of one can hold the name of the other. -/
theorem Signature.Faithful.tags (h : S.Faithful α) {cls cls' : String}
    {fs fs' : List (String × FieldKind)} (hfs : S.fields cls = some fs)
    (hfs' : S.fields cls' = some fs') (hne : cls ≠ cls')
    (hnames : (otherFields fs).map Prod.fst = (otherFields fs').map Prod.fst)
    {kind : FieldKind} (hkind : typeField fs' = some kind) :
    typeField fs = none ∧ ¬ kind.CanHold α cls := by
  by_contra hnot
  -- a value for the second class's field that shows what the first class's tag shows
  obtain ⟨value, hfit, hvisits⟩ : ∃ value : AstField α, S.FitsField value kind
      ∧ SameVisits (tagValue cls (build fs fun f => holding (default : α) f.2))
        (fieldToValue value) := by
    cases htype : typeField fs with
    | some kind' =>
      refine ⟨holding default kind, fits_holding default kind, fun c => ?_⟩
      rw [tagValue, typeField_build, htype, visits_holding]
      exact visits_holding _ kind' c
    | none =>
      obtain ⟨value, hfit, hvisits⟩ := exists_field (S := S)
        (by_contra fun hcls => hnot ⟨htype, hcls⟩)
      refine ⟨value, hfit, fun c => ?_⟩
      rw [tagValue, typeField_build, htype, hvisits]
      rfl
  have htag : SameVisits (tagValue cls (build fs fun f => holding (default : α) f.2))
      (tagValue cls' (build fs' (holdingAt "type" value))) := by
    intro c
    rw [hvisits, tagValue, typeField_build, hkind]
    rfl
  -- the other fields show one and the same leaf on both sides
  have hother : SameNames SameVisits
      (fieldItems (build (otherFields fs) fun f => holding (default : α) f.2))
      (fieldItems (build (otherFields fs') (holdingAt "type" value))) :=
    sameNames_fieldItems hnames (fun f _ c => visits_holding default f.2 c) (fun f hf c => by
      have hname : f.1 ≠ "type" := by simpa using (List.mem_filter.mp hf).2
      rw [holdingAt, if_neg hname, visits_holding])
  obtain ⟨hcls, -⟩ := h.eq_of_sameVisits hfs hfs' (fun f _ => fits_holding default f.2)
    (fits_holdingAt hfs' (mem_of_typeField hkind) hfit) (sameVisits_ast hfs hfs' htag hother)
  exact hne hcls

omit [ToString α] in
/-- A field called `"type"` that is a list and the only field. -/
theorem astToDict_build_type {cls : String} {fs : List (String × FieldKind)}
    (hfs : S.fields cls = some fs) (hnil : otherFields fs = [])
    (htype : typeField fs = some .list) (items : List (AstItem α)) :
    astToDict (.node cls (build fs (holdingAt "type" (.list items))))
      = .dict [("type", .list (itemsToValues items))] := by
  rw [astToDict_build hfs, hnil, tagValue, typeField_build, htype]
  rfl

omit [ToString α] in
/-- A list field that is the last of the other fields. -/
theorem astToDict_build_last {cls : String} {fs init : List (String × FieldKind)} {name : String}
    (hfs : S.fields cls = some fs) (hinit : otherFields fs = init ++ [(name, .list)])
    (items : List (AstItem α)) :
    astToDict (.node cls (build fs (holdingAt name (.list items))))
      = .dict ((("type", tagValue cls (build fs fun f => holding default f.2))
          :: fieldItems (build init fun f => holding default f.2))
        ++ [(name, .list (itemsToValues items))]) := by
  have hmem : (name, FieldKind.list) ∈ otherFields fs := by rw [hinit]; simp
  have hname : name ≠ "type" := by simpa using (List.mem_filter.mp hmem).2
  -- the fields before it have other names, so they do not depend on its items
  have hfresh : ∀ f ∈ init, f.1 ≠ name := by
    have hnodup : ((otherFields fs).map Prod.fst).Nodup :=
      (S.nodup cls fs hfs).sublist (List.filter_sublist.map _)
    rw [hinit, List.map_append, List.nodup_append] at hnodup
    exact fun f hf => hnodup.2.2 f.1 (List.mem_map_of_mem hf) name (by simp)
  have htag : tagValue cls (build fs (holdingAt (α := α) name (.list items)))
      = tagValue cls (build fs fun f => holding default f.2) := by
    rw [tagValue, tagValue, typeField_build, typeField_build]
    cases typeField fs with
    | none => rfl
    | some kind =>
      change fieldToValue (holdingAt name (.list items) ("type", kind)) = _
      rw [holdingAt, if_neg (Ne.symm hname)]
      rfl
  have hbuild : build init (holdingAt (α := α) name (.list items))
      = build init fun f => holding default f.2 :=
    List.map_congr_left fun f hf => by rw [holdingAt, if_neg (hfresh f hf)]
  have hsplit : build (init ++ [(name, .list)]) (holdingAt (α := α) name (.list items))
      = (build init fun f => holding default f.2) ++ [(name, .list items)] := by
    rw [← hbuild]
    unfold build
    rw [List.map_append, List.map_singleton, holdingAt, if_pos rfl]
  rw [astToDict_build hfs, htag, hinit, hsplit]
  unfold fieldItems
  rw [List.map_append, List.cons_append]
  rfl

omit [ToString α] in
/-- The AST of a class whose list field `name` is written last: a dictionary that
ends in that list, after items that do not depend on it. -/
theorem exists_written {cls : String} {fs : List (String × FieldKind)} {name : String}
    (hfs : S.fields cls = some fs) (hlast : (writtenFields fs).getLast? = some (name, .list)) :
    (name, .list) ∈ fs ∧ ∃ done : List (String × Value α), ∀ items,
      astToDict (.node cls (build fs (holdingAt name (.list items))))
        = .dict (done ++ [(name, .list (itemsToValues items))]) := by
  rw [writtenFields, List.getLast?_cons] at hlast
  cases hother : (otherFields fs).getLast? with
  | none =>
    -- no field but `"type"`, so the list is that one
    have hnil : otherFields fs = [] := List.getLast?_eq_none_iff.mp hother
    rw [hother] at hlast
    obtain ⟨rfl, hkind⟩ := Prod.mk.inj (Option.some.inj hlast)
    have htype : typeField fs = some .list := by
      cases htype : typeField fs with
      | none =>
        rw [htype] at hkind
        cases hkind
      | some kind =>
        rw [htype] at hkind
        exact congrArg some hkind
    exact ⟨mem_of_typeField htype, [], astToDict_build_type hfs hnil htype⟩
  | some f =>
    rw [hother] at hlast
    obtain rfl : f = (name, .list) := Option.some.inj hlast
    obtain ⟨init, hinit⟩ := List.getLast?_eq_some_iff.mp hother
    have hmem : (name, FieldKind.list) ∈ otherFields fs := by rw [hinit]; simp
    exact ⟨List.mem_of_mem_filter hmem, _, astToDict_build_last hfs hinit⟩

/-- Where a list is written last, an element after the AST is visited like one more
element of that list. -/
theorem sameVisits_last {cls : String} {fs : List (String × FieldKind)} {name : String}
    {done : List (String × Value α)}
    (hdone : ∀ items, astToDict (.node cls (build fs (holdingAt name (.list items))))
      = .dict (done ++ [(name, .list (itemsToValues items))])) :
    SameVisits
      (fieldToValue (.list [.ast (.node cls (build fs (holdingAt name (.list [])))),
        .other (default : α)]))
      (fieldToValue (.list [.ast (.node cls
        (build fs (holdingAt name (.list [.other (default : α)]))))])) := by
  have hvisits : ∀ (items : List (AstItem α)) c,
      visits (astToDict (.node cls (build fs (holdingAt name (.list items))))) c
        = visitsItems done c c
          ++ (c, name) :: visitsList (itemsToValues items) (c + sizeItems done + 1) := by
    intro items c
    rw [hdone, visits, visitsItems_append, visitsItems, visits, visitsItems, List.append_nil]
  have hsize : size (astToDict (.node cls (build fs (holdingAt (α := α) name (.list [])))))
      = sizeItems done + 1 := by
    rw [← length_visits _ 0, hvisits, List.length_append, length_visitsItems]
    rfl
  intro c
  change visits (astToDict _) c ++ ((c + size (astToDict _), otherLabel default) :: [])
    = visits (astToDict _) c ++ []
  -- the empty list ends where its AST ends, so the next node hangs from its key
  rw [hvisits, hvisits, hsize, List.append_nil, List.append_assoc]
  rfl

/-- **A list at the end collides** with the list around its AST: an element after
the AST could as well be the last one inside it. -/
theorem Signature.Faithful.lastNotList (h : S.Faithful α) {cls : String}
    {fs : List (String × FieldKind)} (hfs : S.fields cls = some fs) {f : String × FieldKind}
    (hlast : f ∈ (writtenFields fs).getLast?) : f.2 ≠ .list := by
  intro hlist
  obtain ⟨name, kind⟩ := f
  obtain rfl : kind = .list := hlist
  obtain ⟨hmem, done, hdone⟩ := exists_written (α := α) hfs hlast
  have hfits : ∀ items : List (AstItem α), S.FitsItems items →
      S.Fits (.node cls (build fs (holdingAt name (.list items)))) := fun items hitems =>
    ⟨fs, hfs, fits_build
      (fits_holdingAt hfs hmem (show S.FitsField (.list items) .list from hitems))⟩
  have hafter : S.FitsField (.list [.ast (.node cls (build fs (holdingAt name (.list [])))),
      .other (default : α)]) .list := ⟨hfits [] trivial, trivial, trivial⟩
  have hinside : S.FitsField (.list [.ast (.node cls
      (build fs (holdingAt name (.list [.other (default : α)]))))]) .list :=
    ⟨hfits [.other default] ⟨trivial, trivial⟩, trivial⟩
  -- one more AST of the class around the two lists
  obtain ⟨-, hbuild⟩ := h.eq_of_sameVisits hfs hfs (fits_holdingAt hfs hmem hafter)
    (fits_holdingAt hfs hmem hinside) (sameVisits_holdingAt hfs (sameVisits_last hdone))
  have hvalue := build_inj hbuild (name, .list) hmem
  rw [holdingAt, holdingAt, if_pos rfl, if_pos rfl] at hvalue
  cases (List.cons.inj (AstField.list.inj hvalue)).2

/-- **The tree encoding is faithful** over the unambiguous signatures, and over no
others. -/
theorem faithful_iff_unambiguous (S : Signature) : S.Faithful α ↔ S.Unambiguous α := by
  constructor
  · intro h
    exact {
      lastNotList := fun cls fs hfs f hf => h.lastNotList hfs hf
      bareClass := fun hlist cls fs hfs hnil => h.bareClass hlist hfs hnil
      tags := fun cls cls' fs fs' hfs hfs' hne hnames kind hkind =>
        h.tags hfs hfs' hne hnames hkind
      leaves := h.leaves }
  · exact fun hS t t' hfit hfit' hsame => eq_of_same_output hS hfit hfit' hsame

end Collisions

/-! ### A statement after an `if` -/

/-- Python constants. -/
inductive PyConst
  | none
  | bool (b : Bool)
  | int (z : ℤ)

/-- `str` on Python constants. -/
instance : ToString PyConst where
  toString
    | .none => "None"
    | .bool true => "True"
    | .bool false => "False"
    | .int z => toString z

/-- The part of the Python grammar that a module with an `if` takes. -/
def pythonIf : Signature where
  fields cls :=
    if cls = "Module" then some [("body", .list), ("type_ignores", .list)]
    else if cls = "If" then some [("test", .node), ("body", .list), ("orelse", .list)]
    else if cls = "Name" then some [("id", .leaf), ("ctx", .node)]
    else if cls = "Load" ∨ cls = "Pass" then some []
    else none
  nodup cls fs h := by
    split_ifs at h <;> cases h <;> decide

def passStmt : AstItem PyConst := .ast (.node "Pass" [])

/-- `if c: pass`, with the given `orelse`. -/
def ifStmt (orelse : List (AstItem PyConst)) : AstItem PyConst :=
  .ast (.node "If"
    [("test", .one (.ast (.node "Name"
        [("id", .one (.str "c")), ("ctx", .one (.ast (.node "Load" [])))]))),
      ("body", .list [passStmt]), ("orelse", .list orelse)])

def moduleOf (body : List (AstItem PyConst)) : Ast PyConst :=
  .node "Module" [("body", .list body), ("type_ignores", .list [])]

/-- A statement after an `if` without `else`, and the same statement in the `else`,
have the same output. -/
theorem if_else_collision :
    pythonIf.Fits (moduleOf [ifStmt [], passStmt]) ∧ pythonIf.Fits (moduleOf [ifStmt [passStmt]])
      ∧ (astDictToIncidenceListAndAttributes (astToDict (moduleOf [ifStmt [], passStmt]))).Same
        (astDictToIncidenceListAndAttributes (astToDict (moduleOf [ifStmt [passStmt]])))
      ∧ moduleOf [ifStmt [], passStmt] ≠ moduleOf [ifStmt [passStmt]] := by
  have hpass : pythonIf.FitsItem passStmt := ⟨[], rfl, trivial⟩
  have hif : ∀ orelse, pythonIf.FitsItems orelse → pythonIf.FitsItem (ifStmt orelse) := by
    intro orelse horelse
    have hload : pythonIf.Fits (α := PyConst) (.node "Load" []) := ⟨[], rfl, trivial⟩
    have hid : pythonIf.FitsField (α := PyConst) (.one (.str "c")) .leaf :=
      ⟨show Plain "c" by decide, fun t => nofun⟩
    have hname : pythonIf.Fits (α := PyConst) (.node "Name"
        [("id", .one (.str "c")), ("ctx", .one (.ast (.node "Load" [])))]) :=
      ⟨_, rfl, rfl, hid, rfl, ⟨hload, fun s => nofun⟩, trivial⟩
    exact ⟨_, rfl, rfl, ⟨hname, fun s => nofun⟩, rfl, ⟨hpass, trivial⟩, rfl, horelse, trivial⟩
  have hmodule : ∀ body, pythonIf.FitsItems body → pythonIf.Fits (moduleOf body) :=
    fun body hbody => ⟨_, rfl, rfl, hbody, rfl, trivial, trivial⟩
  refine ⟨hmodule _ ⟨hif [] trivial, hpass, trivial⟩,
    hmodule _ ⟨hif [passStmt] ⟨hpass, trivial⟩, trivial⟩, ?_, ?_⟩
  · rw [same_output_iff]
    decide +kernel
  · intro h
    cases h

end Arboql
