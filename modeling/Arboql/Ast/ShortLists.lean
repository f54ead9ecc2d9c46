import Arboql.Ast.ClassTags
import Arboql.Ast.ParentLinks
import Arboql.Lib.Reading

/-!
# Short lists are told apart

Over Python's grammar the encoding is not faithful, but what collides has a list of two
elements or a class whose name is overwritten. Two ASTs in which there is neither are
equal when their outputs are, over any signature (`Legible.eq_of_same`). So Python's ASTs
without exception handlers and with lists of at most one element are told apart
(`same_output_iff_eq`).

The visits of an AST are read from the front here too. What comes after starts below the
owner of the AST (`Below`), as a second element of a list would not, and no more has to be
known of it.
-/

namespace Arboql

variable {α : Type} {S : Signature}

/-! ### What a field holds -/

/-- The items of a field. -/
def AstField.items : AstField α → List (AstItem α)
  | .one item => [item]
  | .list items => items

theorem subtreesField_eq (value : AstField α) :
    subtreesField value = subtreesItems value.items := by
  cases value with
  | one item => rw [subtreesField, AstField.items, subtreesItems, subtreesItems, List.append_nil]
  | list items => rfl

theorem visits_fieldToValue [ToString α] (value : AstField α) (c : ℕ) :
    visits (fieldToValue value) c = visitsList (itemsToValues value.items) c := by
  cases value with
  | one item =>
    rw [fieldToValue, AstField.items, itemsToValues, itemsToValues, visitsList, visitsList,
      List.append_nil]
  | list items => rfl

theorem size_fieldToValue (value : AstField α) :
    size (fieldToValue value) = sizeList (itemsToValues value.items) := by
  cases value with
  | one item =>
    rw [fieldToValue, AstField.items, itemsToValues, itemsToValues, sizeList, sizeList,
      Nat.add_zero]
  | list items => rfl

theorem Signature.FitsField.items {value : AstField α} {kind : FieldKind}
    (h : S.FitsField value kind) : S.FitsItems value.items := by
  cases value with
  | one item =>
    cases kind with
    | node => exact ⟨h.1, trivial⟩
    | leaf => exact ⟨h.1, trivial⟩
    | list => exact h.elim
  | list items =>
    cases kind with
    | list => exact h
    | node => exact h.elim
    | leaf => exact h.elim

/-- Fields of one kind are equal if they have the same items. -/
theorem Signature.FitsField.ext {value value' : AstField α} {kind : FieldKind}
    (h : S.FitsField value kind) (h' : S.FitsField value' kind)
    (hitems : value.items = value'.items) : value = value' := by
  cases value with
  | one item =>
    cases value' with
    | one item' =>
      obtain rfl : item = item' := (List.cons.inj hitems).1
      rfl
    | list items' => cases kind <;> first | exact h.elim | exact h'.elim
  | list items =>
    cases value' with
    | one item' => cases kind <;> first | exact h.elim | exact h'.elim
    | list items' =>
      obtain rfl : items = items' := hitems
      rfl

theorem mem_subtreesItems {t : Ast α} {items : List (AstItem α)} (h : AstItem.ast t ∈ items)
    {u : Ast α} (hu : u ∈ subtrees t) : u ∈ subtreesItems items := by
  induction items with
  | nil => exact absurd h List.not_mem_nil
  | cons item items ih =>
    rw [subtreesItems]
    rcases List.mem_cons.mp h with rfl | hmem
    · exact List.mem_append_left _ hu
    · exact List.mem_append_right _ (ih hmem)

/-- What is nested in a field is nested in the AST. -/
theorem mem_subtrees_of_field {cls name : String} {fields : List (String × AstField α)}
    {value : AstField α} (h : (name, value) ∈ fields) {u : Ast α} (hu : u ∈ subtreesField value) :
    u ∈ subtrees (.node cls fields) := by
  rw [subtrees]
  refine List.mem_cons_of_mem _ ?_
  induction fields with
  | nil => exact absurd h List.not_mem_nil
  | cons f fields ih =>
    obtain ⟨name', value'⟩ := f
    rw [subtreesFields]
    rcases List.mem_cons.mp h with heq | hmem
    · obtain ⟨rfl, rfl⟩ := Prod.mk.inj heq
      exact List.mem_append_left _ hu
    · exact List.mem_append_right _ (ih hmem)

/-! ### Lists of at most one element -/

theorem SingleFilledItems.of_mem {items : List (String × Value α)} (h : SingleFilledItems items)
    {key : String} {value : Value α} (hmem : (key, value) ∈ items) : SingleFilled value := by
  induction items with
  | nil => exact absurd hmem List.not_mem_nil
  | cons item items ih =>
    obtain ⟨key', value'⟩ := item
    rcases List.mem_cons.mp hmem with heq | hmem
    · obtain ⟨rfl, rfl⟩ := Prod.mk.inj heq
      exact h.1
    · exact ih h.2 hmem

theorem SingleFilledList.of_mem {t : Ast α} {items : List (AstItem α)}
    (h : SingleFilledList (itemsToValues items)) (hmem : AstItem.ast t ∈ items) :
    SingleFilled (astToDict t) := by
  induction items with
  | nil => exact absurd hmem List.not_mem_nil
  | cons item items ih =>
    rcases List.mem_cons.mp hmem with rfl | hmem
    · exact h.1
    · exact ih h.2.2 hmem

/-- Every item makes a node, so there is no second one. -/
theorem SingleFilledList.short {items : List (AstItem α)}
    (h : SingleFilledList (itemsToValues items)) : items = [] ∨ ∃ item, items = [item] := by
  cases items with
  | nil => exact Or.inl rfl
  | cons item items =>
    obtain ⟨-, hempty, -⟩ := h
    have hsize := hempty (size_itemToValue_pos item)
    cases items with
    | nil => exact Or.inr ⟨item, rfl⟩
    | cons item' items =>
      rw [itemsToValues, sizeList] at hsize
      have := size_itemToValue_pos item'
      omega

theorem singleFilled_fieldToValue {value : AstField α} (h : SingleFilled (fieldToValue value)) :
    SingleFilledList (itemsToValues value.items) := by
  cases value with
  | one item => exact ⟨h, fun _ => rfl, trivial⟩
  | list items => exact h

/-! ### Legible ASTs -/

/-- **A legible AST**: it is over the signature, the classes in it are kept, and no list in
it has two elements. -/
structure Legible (S : Signature) (t : Ast α) : Prop where
  fits : S.Fits t
  kept : KeepsClasses t
  single : SingleFilled (astToDict t)

/-- A field that holds at most one item, which is legible if it is an AST. -/
structure LegibleField (S : Signature) (value : AstField α) (kind : FieldKind) : Prop where
  fits : S.FitsField value kind
  short : value.items = [] ∨ ∃ item, value.items = [item]
  asts : ∀ t, .ast t ∈ value.items → Legible S t

/-- The ASTs among items that fit do so themselves. -/
theorem fits_of_mem {t : Ast α} {items : List (AstItem α)} (h : S.FitsItems items)
    (hmem : AstItem.ast t ∈ items) : S.Fits t := by
  induction items with
  | nil => exact absurd hmem List.not_mem_nil
  | cons item items ih =>
    rcases List.mem_cons.mp hmem with rfl | hmem
    · exact h.1
    · exact ih h.2 hmem

namespace Legible

variable {cls : String} {fields : List (String × AstField α)}

/-- The tag is the name of the class. -/
theorem tagValue_eq (h : Legible S (.node cls fields)) : tagValue cls fields = .str cls := by
  obtain ⟨fs, hfs, hfields⟩ := h.fits
  have htype := (h.kept _ (mem_subtrees_self _)).type
  exact Option.some.inj ((lookup_type (hfields.nodup hfs)).symm.trans htype)

/-- **A field of a legible AST** is legible. -/
theorem field (h : Legible S (.node cls fields)) {name : String} {value : AstField α}
    {kind : FieldKind} (hmem : (name, value) ∈ otherFields fields)
    (hfit : S.FitsField value kind) : LegibleField S value kind := by
  obtain ⟨fs, hfs, hfields⟩ := h.fits
  have hsingle := h.single
  rw [astToDict_eq (hfields.nodup hfs)] at hsingle
  -- the field is one of the items of the dictionary, and what it holds is a list of its own
  have hlist := singleFilled_fieldToValue
    (SingleFilledItems.of_mem hsingle.2 (List.mem_map.mpr ⟨_, hmem, rfl⟩))
  refine ⟨hfit, hlist.short, fun t ht => ⟨fits_of_mem hfit.items ht, fun u hu => ?_,
    hlist.of_mem ht⟩⟩
  refine h.kept u (mem_subtrees_of_field (List.mem_of_mem_filter hmem) ?_)
  rw [subtreesField_eq]
  exact mem_subtreesItems ht hu

/-- The other fields of a legible AST next to those of its class. -/
theorem otherFields (h : Legible S (.node cls fields)) {fs : List (String × FieldKind)}
    (hfs : S.fields cls = some fs) :
    SameNames (LegibleField S) (Arboql.otherFields fields) (Arboql.otherFields fs) := by
  obtain ⟨fs', hfs', hfields⟩ := h.fits
  obtain rfl : fs = fs' := Option.some.inj (hfs.symm.trans hfs')
  -- next to the kind of each field, keep where the field is from
  have hboth := (List.forall₂_and_left (p := fun f => f ∈ Arboql.otherFields fields) _ _).mpr
    ⟨fun _ hf => hf, Signature.fitsFields_iff.mp hfields.otherFields⟩
  exact hboth.imp fun f _ hf => ⟨hf.2.1, h.field hf.1 hf.2.2⟩

/-- The field called `"type"` can only hold the name of the class. -/
theorem typeField_eq_some (h : Legible S (.node cls fields)) {value : AstField α}
    (hvalue : typeField fields = some value) : value = .one (.str cls) := by
  have htag := h.tagValue_eq
  rw [tagValue_of_some hvalue] at htag
  cases value with
  | list items => cases htag
  | one item =>
    cases item with
    | ast t =>
      obtain ⟨cls', fields'⟩ := t
      rw [fieldToValue, itemToValue, astToDict] at htag
      cases htag
    | str s =>
      obtain rfl : s = cls := Value.str.inj htag
      rfl
    | other a => cases htag

/-- Two legible ASTs of one class have the same field called `"type"`. -/
theorem typeField_eq {fields' : List (String × AstField α)} (h : Legible S (.node cls fields))
    (h' : Legible S (.node cls fields')) : typeField fields = typeField fields' := by
  obtain ⟨fs, hfs, hfields⟩ := h.fits
  obtain ⟨fs', hfs', hfields'⟩ := h'.fits
  obtain rfl : fs = fs' := Option.some.inj (hfs.symm.trans hfs')
  rcases hfields.typeField with ⟨hnone, hkind⟩ | ⟨value, kind, hvalue, hkind, -⟩ <;>
    rcases hfields'.typeField with ⟨hnone', hkind'⟩ | ⟨value', kind', hvalue', hkind', -⟩
  · exact hnone.trans hnone'.symm
  · rw [hkind] at hkind'
    cases hkind'
  · rw [hkind] at hkind'
    cases hkind'
  · rw [hvalue, hvalue', h.typeField_eq_some hvalue, h'.typeField_eq_some hvalue']

end Legible

/-! ### Reading -/

section Reading

variable [ToString α] {K K' : List (ℕ × String)} {N : ℕ}

/-- What comes after starts below `lo`. -/
def Below (lo : ℕ) (K : List (ℕ × String)) : Prop := ∀ x ∈ K.head?, x.1 < lo

/-- After the value of a key come the other keys of the owner. -/
theorem Below.items {owner lo c : ℕ} {items : List (String × Value α)} (h : Below owner K)
    (hlo : owner < lo) : Below lo (visitsItems items owner c ++ K) := by
  intro x hx
  cases items with
  | nil => exact (h x hx).trans hlo
  | cons item items =>
    obtain ⟨key, value⟩ := item
    obtain rfl : x = (owner, key) := (Option.some.inj hx).symm
    exact hlo

/-- A legible AST starts with its tag and its class. -/
theorem Legible.visits {cls : String} {fields : List (String × AstField α)}
    (h : Legible S (.node cls fields)) (c : ℕ) :
    visits (astToDict (.node cls fields)) c = (c, "type") :: (c + 1, cls)
      :: visitsItems (fieldItems (Arboql.otherFields fields)) c (c + 2) := by
  obtain ⟨fs, hfs, hfields⟩ := h.fits
  rw [visits_astToDict (hfields.nodup hfs), h.tagValue_eq]
  rfl

/-- Legible encodings of fewer than `N` nodes can be undone. -/
def ReadsLegible (α : Type) [ToString α] (S : Signature) (N : ℕ) : Prop :=
  ∀ (t t' : Ast α) (o : ℕ) (K K' : List (ℕ × String)), size (astToDict t) < N →
    Legible S t → Legible S t' → Below o K → Below o K' →
    Arboql.visits (astToDict t) o ++ K = Arboql.visits (astToDict t') o ++ K' → t = t' ∧ K = K'

/-- A leaf is not a legible AST: after the leaf comes nothing that hangs from it. -/
theorem leaf_ne_legible {item : AstItem α} (hleaf : ∀ t, item ≠ .ast t) {t : Ast α}
    (ht : Legible S t) {c : ℕ} (hK : Below c K) :
    visits (itemToValue item) c ++ K ≠ visits (astToDict t) c ++ K' := by
  obtain ⟨cls, fields⟩ := t
  rw [ht.visits]
  intro h
  have htail : K = (c + 1, cls)
      :: (visitsItems (fieldItems (Arboql.otherFields fields)) c (c + 2) ++ K') := by
    cases item with
    | ast t => exact absurd rfl (hleaf t)
    | str s => exact (List.cons.inj h).2
    | other a => exact (List.cons.inj h).2
  have := hK (c + 1, cls) (by rw [htail]; rfl)
  omega

/-- **An item.** -/
theorem legibleItem_inj (hinj : Function.Injective (toString : α → String))
    (ih : ReadsLegible α S N) {item item' : AstItem α} (hfit : S.FitsItem item)
    (hfit' : S.FitsItem item') (hast : ∀ t, item = .ast t → Legible S t)
    (hast' : ∀ t, item' = .ast t → Legible S t) (hsize : size (itemToValue item) < N) {c : ℕ}
    (hK : Below c K) (hK' : Below c K')
    (h : visits (itemToValue item) c ++ K = visits (itemToValue item') c ++ K') :
    item = item' ∧ K = K' := by
  rcases item.ast_or_leaf with ⟨t, rfl⟩ | hleaf
  · rcases item'.ast_or_leaf with ⟨t', rfl⟩ | hleaf'
    · obtain ⟨rfl, hKK⟩ := ih t t' c K K' hsize (hast t rfl) (hast' t' rfl) hK hK' h
      exact ⟨rfl, hKK⟩
    · exact absurd h.symm (leaf_ne_legible hleaf' (hast t rfl) hK')
  · rcases item'.ast_or_leaf with ⟨t', rfl⟩ | hleaf'
    · exact absurd h (leaf_ne_legible hleaf (hast' t' rfl) hK)
    · exact leaf_inj hinj hfit hfit' hleaf hleaf' h

/-- **A field.** An empty list is told from an element by what comes next. -/
theorem legibleField_inj (hinj : Function.Injective (toString : α → String))
    (ih : ReadsLegible α S N) {value value' : AstField α} {kind : FieldKind}
    (hvalue : LegibleField S value kind) (hvalue' : LegibleField S value' kind)
    (hsize : size (fieldToValue value) < N) {c : ℕ} (hK : Below c K) (hK' : Below c K')
    (h : visits (fieldToValue value) c ++ K = visits (fieldToValue value') c ++ K') :
    value = value' ∧ K = K' := by
  suffices hitems : value.items = value'.items ∧ K = K' from
    ⟨hvalue.fits.ext hvalue'.fits hitems.1, hitems.2⟩
  rw [visits_fieldToValue, visits_fieldToValue] at h
  rw [size_fieldToValue] at hsize
  have hfit := hvalue.fits.items
  have hfit' := hvalue'.fits.items
  have hasts := hvalue.asts
  have hasts' := hvalue'.asts
  rcases hvalue.short with hnil | ⟨item, hitem⟩ <;>
    rcases hvalue'.short with hnil' | ⟨item', hitem'⟩
  · rw [hnil, hnil'] at h ⊢
    exact ⟨rfl, h⟩
  · -- an element starts at `c`, and what comes after an empty list below it
    rw [hitem'] at hfit'
    obtain ⟨label, rest, hvisits, -⟩ := visits_item hfit'.1 c
    rw [hnil, hitem', itemsToValues, itemsToValues, visitsList, visitsList, hvisits] at h
    have := hK (c, label) (by rw [← List.nil_append K, h]; rfl)
    omega
  · rw [hitem] at hfit
    obtain ⟨label, rest, hvisits, -⟩ := visits_item hfit.1 c
    rw [hitem, hnil', itemsToValues, itemsToValues, visitsList, visitsList, hvisits] at h
    have := hK' (c, label) (by rw [← List.nil_append K', ← h]; rfl)
    omega
  · rw [hitem] at hfit hasts hsize
    rw [hitem'] at hfit' hasts'
    rw [hitem, hitem'] at h ⊢
    simp only [itemsToValues, visitsList, sizeList, List.append_nil, Nat.add_zero] at h hsize
    obtain ⟨rfl, hKK⟩ := legibleItem_inj hinj ih hfit.1 hfit'.1
      (fun t ht => hasts t (List.mem_singleton.mpr ht.symm))
      (fun t ht => hasts' t (List.mem_singleton.mpr ht.symm)) hsize hK hK' h
    exact ⟨rfl, hKK⟩

/-- **The other fields**, one after the other. -/
theorem legibleFields_inj (hinj : Function.Injective (toString : α → String))
    (ih : ReadsLegible α S N) {fields fields' : List (String × AstField α)}
    {fs : List (String × FieldKind)} (hfields : SameNames (LegibleField S) fields fs)
    (hfields' : SameNames (LegibleField S) fields' fs)
    (hsize : sizeItems (fieldItems fields) < N) {owner c : ℕ} (hc : owner ≤ c)
    (hK : Below owner K) (hK' : Below owner K')
    (h : visitsItems (fieldItems fields) owner c ++ K
      = visitsItems (fieldItems fields') owner c ++ K') :
    fields = fields' ∧ K = K' := by
  induction hfields generalizing fields' c with
  | nil =>
    cases hfields'
    exact ⟨rfl, h⟩
  | @cons field f fields fs hfield hfields ihFields =>
    obtain ⟨name, value⟩ := field
    cases hfields' with
    | @cons field' _ fields' _ hfield' hfields' =>
      obtain ⟨name', value'⟩ := field'
      obtain ⟨hname, hvalue⟩ := hfield
      obtain ⟨hname', hvalue'⟩ := hfield'
      obtain rfl : name = name' := hname.trans hname'.symm
      rw [fieldItems, List.map_cons, sizeItems] at hsize
      rw [fieldItems, fieldItems, List.map_cons, List.map_cons, visitsItems, visitsItems,
        List.cons_append, List.cons_append, List.append_assoc, List.append_assoc] at h
      dsimp only at hsize hvalue hvalue' h
      -- the value is followed by the other keys, which hang from the owner
      obtain ⟨rfl, hrest⟩ := legibleField_inj hinj ih hvalue hvalue' (by omega)
        (hK.items (by omega)) (hK'.items (by omega)) (List.cons.inj h).2
      obtain ⟨rfl, hKK⟩ := ihFields hfields' (by rw [fieldItems]; omega) (by omega) hrest
      exact ⟨rfl, hKK⟩

/-- **Every legible encoding can be undone.** -/
theorem readsLegible (hinj : Function.Injective (toString : α → String)) (S : Signature) (N : ℕ) :
    ReadsLegible α S N := by
  induction N with
  | zero => exact fun t t' o K K' hsize => absurd hsize (Nat.not_lt_zero _)
  | succ N ih =>
    intro t t' o K K' hsize ht ht' hK hK' h
    obtain ⟨cls, fields⟩ := t
    obtain ⟨cls', fields'⟩ := t'
    obtain ⟨fs, hfs, hfit⟩ := ht.fits
    rw [ht.visits, ht'.visits] at h
    -- the name of the class is the second visit, and then come the other fields
    obtain ⟨hcls, hrest⟩ := List.cons.inj (List.cons.inj h).2
    obtain rfl : cls = cls' := (Prod.mk.inj hcls).2
    rw [size_astToDict (hfit.nodup hfs)] at hsize
    obtain ⟨hother, hKK⟩ := legibleFields_inj hinj ih (ht.otherFields hfs) (ht'.otherFields hfs)
      (by omega) (by omega) hK hK' hrest
    -- a field called `"type"` is not written, but the class says what it holds
    obtain ⟨fs', hfs', hfit'⟩ := ht'.fits
    obtain rfl : fs = fs' := Option.some.inj (hfs.symm.trans hfs')
    obtain rfl := Signature.fields_ext (hfit.map_fst.trans hfit'.map_fst.symm) (hfit.nodup hfs)
      (ht.typeField_eq ht') hother
    exact ⟨rfl, hKK⟩

/-- **Legible ASTs are told apart**, over any signature. -/
theorem Legible.eq_of_same (hinj : Function.Injective (toString : α → String)) {t t' : Ast α}
    (ht : Legible S t) (ht' : Legible S t')
    (h : (astDictToIncidenceListAndAttributes (astToDict t)).Same
      (astDictToIncidenceListAndAttributes (astToDict t'))) : t = t' := by
  rw [same_output_iff] at h
  have hnil : Below 0 [] := fun x hx => absurd hx (Option.not_mem_none x)
  refine (readsLegible hinj S _ t t' 0 [] [] (Nat.lt_succ_self _) ht ht' hnil hnil ?_).1
  rw [h]

end Reading

/-! ### Python's grammar -/

namespace Signature

mutual

/-- An AST that fits the signature is over it. -/
theorem Fits.over {t : Ast α} (h : S.Fits t) : S.Over t := by
  match t with
  | .node cls fields =>
    obtain ⟨fs, hfs, hfields⟩ := h
    exact ⟨fs, hfs, FitsFields.over hfields⟩

theorem FitsFields.over {fields : List (String × AstField α)} {fs : List (String × FieldKind)}
    (h : S.FitsFields fields fs) : S.OverFields fields fs := by
  match fields, fs with
  | [], [] => exact trivial
  | (name, value) :: fields, (name', kind) :: fs =>
    obtain ⟨hname, hvalue, hrest⟩ := h
    exact ⟨hname, FitsField.over hvalue, FitsFields.over hrest⟩
  | [], _ :: _ => exact h.elim
  | _ :: _, [] => exact h.elim

theorem FitsField.over {value : AstField α} {kind : FieldKind} (h : S.FitsField value kind) :
    S.OverField value kind := by
  match value, kind with
  | .one item, .node => exact ⟨FitsItem.over h.1, h.2⟩
  | .one item, .leaf => exact ⟨FitsItem.over h.1, h.2⟩
  | .list items, .list => exact FitsItems.over h
  | .one item, .list => exact h.elim
  | .list items, .node => exact h.elim
  | .list items, .leaf => exact h.elim

theorem FitsItems.over {items : List (AstItem α)} (h : S.FitsItems items) :
    S.OverItems items := by
  match items with
  | [] => exact trivial
  | item :: items => exact ⟨FitsItem.over h.1, FitsItems.over h.2⟩

theorem FitsItem.over {item : AstItem α} (h : S.FitsItem item) : S.OverItem item := by
  match item with
  | .ast t => exact Fits.over h
  | .str s => exact trivial
  | .other a => exact trivial

end

end Signature

/-- Without exception handlers and with short lists, Python's ASTs are legible. -/
theorem ExceptHandlerGrammar.legible (hS : ExceptHandlerGrammar S) {t : Ast α} (hfit : S.Fits t)
    (hhandlers : ∀ u ∈ subtrees t, u.cls ≠ "ExceptHandler") (hshort : SingleFilled (astToDict t)) :
    Legible S t where
  fits := hfit
  kept u hu := (hS.keepsClass_iff (hfit.over.subtrees hu)).mpr (hhandlers u hu)
  single := hshort

/-- **Python's ASTs with short lists are told apart.** If there is no exception handler and
no list of two elements in either, two ASTs have the same output exactly if they are equal. -/
theorem same_output_iff_eq [ToString α] (hS : ExceptHandlerGrammar S)
    (hinj : Function.Injective (toString : α → String)) {t t' : Ast α} (hfit : S.Fits t)
    (hfit' : S.Fits t') (hhandlers : ∀ u ∈ subtrees t, u.cls ≠ "ExceptHandler")
    (hhandlers' : ∀ u ∈ subtrees t', u.cls ≠ "ExceptHandler")
    (hshort : SingleFilled (astToDict t)) (hshort' : SingleFilled (astToDict t')) :
    (astDictToIncidenceListAndAttributes (astToDict t)).Same
      (astDictToIncidenceListAndAttributes (astToDict t')) ↔ t = t' := by
  constructor
  · exact (hS.legible hfit hhandlers hshort).eq_of_same hinj (hS.legible hfit' hhandlers' hshort')
  · rintro rfl
    exact (same_output_iff _ _).mpr rfl

/-- Only the text of an integer can be read as one. -/
theorem readInt_toString_pyConst (a : PyConst) :
    Reading.readInt (toString a).toList
      = match a with
        | .int z => some (z, [])
        | _ => none := by
  cases a with
  | none => decide
  | bool b => cases b <;> decide
  | int z =>
    have hz := @Reading.readInt_append z [] fun c hc => by cases hc
    rwa [List.append_nil] at hz

theorem toString_pyConst_injective : Function.Injective (toString : PyConst → String) := by
  intro a b h
  have hread := (readInt_toString_pyConst a).symm.trans
    ((congrArg (fun s : String => Reading.readInt s.toList) h).trans (readInt_toString_pyConst b))
  cases a with
  | int z =>
    cases b with
    | int z' =>
      obtain rfl : z = z' := (Prod.mk.inj (Option.some.inj hread)).1
      rfl
    | none => cases hread
    | bool b => cases hread
  | none =>
    cases b with
    | none => rfl
    | bool b => cases b <;> exact absurd h (by decide)
    | int z => cases hread
  | bool a =>
    cases b with
    | none => cases a <;> exact absurd h (by decide)
    | bool b => cases a <;> cases b <;> first
      | rfl
      | exact absurd h (by decide)
    | int z => cases hread

/-- A module with one `if`. -/
theorem fits_moduleOf_ifStmt {orelse : List (AstItem PyConst)}
    (horelse : pythonGrammar.FitsItems orelse) :
    pythonGrammar.Fits (moduleOf [ifStmt orelse]) := by
  have hpass : pythonGrammar.FitsItem passStmt := ⟨[], by decide +kernel, trivial⟩
  have hload : pythonGrammar.Fits (α := PyConst) (.node "Load" []) :=
    ⟨[], by decide +kernel, trivial⟩
  have hid : pythonGrammar.FitsField (α := PyConst) (.one (.str "c")) .leaf :=
    ⟨show Plain "c" by decide, fun t => nofun⟩
  have hname : pythonGrammar.Fits (α := PyConst) (.node "Name"
      [("id", .one (.str "c")), ("ctx", .one (.ast (.node "Load" [])))]) :=
    ⟨[("id", .leaf), ("ctx", .node)], by decide +kernel, rfl, hid, rfl,
      ⟨hload, fun s => nofun⟩, trivial⟩
  have hif : pythonGrammar.FitsItem (ifStmt orelse) :=
    ⟨[("test", .node), ("body", .list), ("orelse", .list)], by decide +kernel, rfl,
      ⟨hname, fun s => nofun⟩, rfl, ⟨hpass, trivial⟩, rfl, horelse, trivial⟩
  exact ⟨[("body", .list), ("type_ignores", .list)], by decide +kernel, rfl, ⟨hif, trivial⟩, rfl,
    trivial, trivial⟩

/-- An `if` alone in its module is told from the same `if` with an `else`. -/
theorem same_output_iff_eq_else :
    ¬ (astDictToIncidenceListAndAttributes (astToDict (moduleOf [ifStmt []]))).Same
      (astDictToIncidenceListAndAttributes (astToDict (moduleOf [ifStmt [passStmt]]))) := by
  have hpass : pythonGrammar.FitsItems [passStmt] := ⟨⟨[], by decide +kernel, trivial⟩, trivial⟩
  have hshort : SingleFilled (astToDict (moduleOf [ifStmt []])) := by decide
  have hshort' : SingleFilled (astToDict (moduleOf [ifStmt [passStmt]])) := by decide
  intro h
  cases (same_output_iff_eq exceptHandlerGrammar_python toString_pyConst_injective
    (@fits_moduleOf_ifStmt [] trivial) (fits_moduleOf_ifStmt hpass) (by decide)
    (by decide) hshort hshort').mp h

end Arboql
