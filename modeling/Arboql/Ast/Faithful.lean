import Arboql.Ast.AstDict

/-!
# When the tree encoding of an AST can be undone

The output determines the visits (`same_output_iff`), so what is in question is
whether the visits determine the AST. The visits of an AST are read from the
front, followed by the visits of whatever comes after it (`Cont`): visits below
the AST's own owner, or, when the AST is an element of a list, visits at or above
the counter it ended at.

Reading succeeds over the signatures that are `Unambiguous`. What it takes is
that no class ends in a list, whose end could not be told from that of a list
around it; that a class cannot be mistaken for two strings of a list, nor a class
name for the content of a field called `"type"`; and that `str` tells leaves
apart.
-/

namespace Arboql

variable {α : Type} [ToString α]

/-! ### Where visits hang -/

mutual

theorem le_of_mem_visits (v : Value α) {c : ℕ} {x : ℕ × String} (h : x ∈ visits v c) :
    c ≤ x.1 := by
  cases v with
  | dict items =>
    rcases of_mem_visitsItems items h with heq | hlt
    · exact heq.ge
    · exact hlt.le
  | str s =>
    rw [visits, List.mem_singleton] at h
    rw [h]
  | list elems => exact le_of_mem_visitsList elems h
  | other a =>
    rw [visits, List.mem_singleton] at h
    rw [h]

/-- A key hangs from the owner, and everything else from a node made later. -/
theorem of_mem_visitsItems (items : List (String × Value α)) {owner c : ℕ} {x : ℕ × String}
    (h : x ∈ visitsItems items owner c) : x.1 = owner ∨ c < x.1 := by
  match items with
  | [] => exact absurd h List.not_mem_nil
  | (key, value) :: items =>
    rw [visitsItems, List.mem_cons, List.mem_append] at h
    rcases h with rfl | h | h
    · -- the key itself
      exact Or.inl rfl
    · -- its value, entered at a node made later
      have := le_of_mem_visits value h
      exact Or.inr (by omega)
    · rcases of_mem_visitsItems items h with heq | hlt
      · exact Or.inl heq
      · exact Or.inr (by omega)

theorem le_of_mem_visitsList (elems : List (Value α)) {c : ℕ} {x : ℕ × String}
    (h : x ∈ visitsList elems c) : c ≤ x.1 := by
  match elems with
  | [] => exact absurd h List.not_mem_nil
  | child :: elems =>
    rw [visitsList, List.mem_append] at h
    rcases h with h | h
    · exact le_of_mem_visits child h
    · have := le_of_mem_visitsList elems h
      omega

end

/-- The visits that hang from the owner are the keys. -/
theorem filter_visitsItems (items : List (String × Value α)) {owner c : ℕ} (h : owner ≤ c) :
    (visitsItems items owner c).filter (fun x => x.1 = owner)
      = items.map fun item => (owner, item.1) := by
  induction items generalizing c with
  | nil => rfl
  | cons item items ih =>
    obtain ⟨key, value⟩ := item
    -- nothing in a value hangs from the owner
    have hvalue : (visits value (c + 1)).filter (fun x => x.1 = owner) = [] := by
      rw [List.filter_eq_nil_iff]
      intro x hx
      have := le_of_mem_visits value hx
      simp only [decide_eq_true_eq]
      omega
    rw [visitsItems, List.filter_cons_of_pos (by simp), List.filter_append, hvalue,
      List.nil_append, ih (by omega), List.map_cons]

/-! ### Labels -/

/-- The label of a string leaf or of another leaf. -/
def LeafLabel (α : Type) [ToString α] (label : String) : Prop :=
  Plain label ∨ ∃ a : α, label = otherLabel a

/-- A field of the kind can hold a leaf with the label. -/
def FieldKind.CanHold (α : Type) [ToString α] (kind : FieldKind) (label : String) : Prop :=
  match kind with
  | .node => ∃ a : α, label = otherLabel a
  | .list => LeafLabel α label
  | .leaf => LeafLabel α label

theorem not_plain_otherLabel (a : α) : ¬ Plain (otherLabel a) := by
  unfold Plain otherLabel
  rw [String.toList_append]
  simp

theorem plain_type : Plain "type" := by decide

theorem otherLabel_injective (h : Function.Injective (toString : α → String)) :
    Function.Injective (otherLabel : α → String) := by
  intro a b hab
  unfold otherLabel at hab
  exact h ((String.append_right_inj "_").mp hab)

/-! ### Unambiguous signatures -/

/-- The fields in the order in which `ast_to_dict` writes them. A class name counts
as a leaf. -/
def writtenFields (fs : List (String × FieldKind)) : List (String × FieldKind) :=
  ("type", (typeField fs).getD .leaf) :: otherFields fs

/-- **A signature whose encodings can be undone.** -/
structure Signature.Unambiguous (S : Signature) (α : Type) [ToString α] : Prop where
  /-- No class is written with a list at its end. -/
  lastNotList : ∀ cls fs, S.fields cls = some fs →
    ∀ f ∈ (writtenFields fs).getLast?, f.2 ≠ .list
  /-- In the presence of lists, a class with no field but `"type"` does not have
  that one either, and its name is not the label of a leaf. -/
  bareClass : S.HasList → ∀ cls fs, S.fields cls = some fs → otherFields fs = [] →
    typeField fs = none ∧ ¬ LeafLabel α cls
  /-- If two classes have the same fields apart from `"type"` and the second has that
  one, then the first does not, and its name is not what the second can hold there. -/
  tags : ∀ cls cls' fs fs', S.fields cls = some fs → S.fields cls' = some fs' → cls ≠ cls' →
    (otherFields fs).map Prod.fst = (otherFields fs').map Prod.fst →
    ∀ kind, typeField fs' = some kind → typeField fs = none ∧ ¬ kind.CanHold α cls
  /-- `str` tells leaves apart, if there are fields to hold them. -/
  leaves : S.HasField → Function.Injective (toString : α → String)

/-! ### What comes after -/

/-- **What comes after** an encoding entered at `lo` that ends with the counter at
`hi`. Without lists it starts below `lo`. -/
structure Cont (S : Signature) (lo hi : ℕ) (K : List (ℕ × String)) : Prop where
  apart : ∀ x ∈ K, x.1 < lo ∨ hi ≤ x.1
  head : ¬ S.HasList → ∀ x ∈ K.head?, x.1 < lo

variable {S : Signature} {K K' : List (ℕ × String)}

/-- After the value of a key come the other keys of the owner. -/
theorem Cont.items {owner c lo hi : ℕ} {items : List (String × Value α)}
    (h : Cont S owner (c + sizeItems items) K) (hlo : owner < lo) (hhi : hi ≤ c) :
    Cont S lo hi (visitsItems items owner c ++ K) where
  apart x hx := by
    rcases List.mem_append.mp hx with hx | hx
    · -- the other keys hang from the owner, and their values from above the counter
      rcases of_mem_visitsItems items hx with heq | hlt
      · exact Or.inl (by omega)
      · exact Or.inr (by omega)
    · rcases h.apart x hx with hlt | hle
      · exact Or.inl (by omega)
      · exact Or.inr (by omega)
  head hnone x hx := by
    cases items with
    | nil =>
      have := h.head hnone x hx
      omega
    | cons item items =>
      obtain ⟨key, value⟩ := item
      obtain rfl : x = (owner, key) := (Option.some.inj hx).symm
      exact hlo

/-- After an element of a list come the other elements. -/
theorem Cont.list {m c lo : ℕ} {elems : List (Value α)} (hlist : S.HasList)
    (h : ∀ x ∈ K, x.1 < m ∨ c + sizeList elems ≤ x.1) (hm : m ≤ lo) :
    Cont S lo c (visitsList elems c ++ K) where
  apart x hx := by
    rcases List.mem_append.mp hx with hx | hx
    · exact Or.inr (le_of_mem_visitsList elems hx)
    · rcases h x hx with hlt | hle
      · exact Or.inl (by omega)
      · exact Or.inr (by omega)
  head hnone := absurd hlist hnone

/-! ### The encoding of an AST -/

/-- The tag comes first, then what is under it, then the other keys. -/
theorem visits_astToDict {cls : String} {fields : List (String × AstField α)}
    (h : (fields.map Prod.fst).Nodup) (c : ℕ) :
    visits (astToDict (.node cls fields)) c
      = (c, "type") :: (visits (tagValue cls fields) (c + 1)
        ++ visitsItems (fieldItems (otherFields fields)) c
          (c + 1 + size (tagValue cls fields))) := by
  rw [astToDict_eq h, visits, visitsItems]

/-- The first visit of an AST is the key `"type"`. -/
theorem visits_ast {t : Ast α} (h : S.Fits t) (c : ℕ) :
    ∃ rest, visits (astToDict t) c = (c, "type") :: rest := by
  obtain ⟨cls, fields⟩ := t
  obtain ⟨fs, hfs, hfields⟩ := h
  exact ⟨_, visits_astToDict (hfields.nodup hfs) c⟩

/-- An item starts at the counter, with what could be the label of a leaf. -/
theorem visits_item {item : AstItem α} (h : S.FitsItem item) (c : ℕ) :
    ∃ label rest, visits (itemToValue item) c = (c, label) :: rest ∧ LeafLabel α label := by
  cases item with
  | ast t =>
    obtain ⟨rest, hrest⟩ := visits_ast h c
    exact ⟨"type", rest, hrest, Or.inl plain_type⟩
  | str s => exact ⟨s, [], rfl, Or.inl h⟩
  | other a => exact ⟨otherLabel a, [], rfl, Or.inr ⟨a, rfl⟩⟩

/-- An AST makes at least two nodes. -/
theorem Signature.Unambiguous.two_le_size (hS : S.Unambiguous α) {t : Ast α}
    (h : S.Fits t) : 2 ≤ size (astToDict t) := by
  obtain ⟨cls, fields⟩ := t
  obtain ⟨fs, hfs, hfields⟩ := h
  rw [size_astToDict (hfields.nodup hfs)]
  cases hrest : otherFields fields with
  | cons f rest =>
    rw [fieldItems, List.map_cons, sizeItems]
    omega
  | nil =>
    -- the tag is written last, so it is not a list
    have hnil : otherFields fs = [] := hfields.otherFields_eq_nil_iff.mp hrest
    have htag : 0 < size (tagValue cls fields) := by
      rcases hfields.typeField with ⟨hnone, -⟩ | ⟨value, kind, hvalue, hkind, hfits⟩
      · rw [tagValue_of_none hnone]
        exact Nat.one_pos
      · have hlast := hS.lastNotList cls fs hfs ("type", kind)
          (by rw [writtenFields, hnil, hkind]; rfl)
        rw [tagValue_of_some hvalue]
        cases value with
        | one item => exact size_itemToValue_pos item
        | list items =>
          cases kind with
          | list => exact absurd rfl hlast
          | node => exact hfits.elim
          | leaf => exact hfits.elim
    omega

/-! ### Leaves and elements of lists -/

/-- Leaves are told apart by their labels. -/
theorem leaf_inj (hinj : Function.Injective (toString : α → String)) {item item' : AstItem α}
    (hfit : S.FitsItem item) (hfit' : S.FitsItem item') (hleaf : ∀ t, item ≠ .ast t)
    (hleaf' : ∀ t, item' ≠ .ast t) {c : ℕ}
    (h : visits (itemToValue item) c ++ K = visits (itemToValue item') c ++ K') :
    item = item' ∧ K = K' := by
  cases item with
  | ast t => exact absurd rfl (hleaf t)
  | str s =>
    cases item' with
    | ast t => exact absurd rfl (hleaf' t)
    | str s' =>
      obtain ⟨hhead, hrest⟩ := List.cons.inj h
      exact ⟨congrArg AstItem.str (Prod.mk.inj hhead).2, hrest⟩
    | other a =>
      -- the label of a leaf that is not a string starts with an underscore
      have hlabel : s = otherLabel a := (Prod.mk.inj (List.cons.inj h).1).2
      exact absurd (hlabel ▸ hfit) (not_plain_otherLabel a)
  | other a =>
    cases item' with
    | ast t => exact absurd rfl (hleaf' t)
    | str s =>
      have hlabel : otherLabel a = s := (Prod.mk.inj (List.cons.inj h).1).2
      exact absurd (hlabel ▸ hfit') (not_plain_otherLabel a)
    | other a' =>
      obtain ⟨hhead, hrest⟩ := List.cons.inj h
      have hlabel : otherLabel a = otherLabel a' := (Prod.mk.inj hhead).2
      exact ⟨congrArg AstItem.other (otherLabel_injective hinj hlabel), hrest⟩

/-- In a list a leaf and what follows it are not an AST. -/
theorem leaf_ne_ast (hS : S.Unambiguous α) (hlist : S.HasList) {item : AstItem α}
    (hleaf : ∀ t, item ≠ .ast t) {items : List (AstItem α)} (hitems : S.FitsItems items)
    {t : Ast α} (ht : S.Fits t) {m c : ℕ} (hm : m ≤ c)
    (hK : ∀ x ∈ K, x.1 < m ∨ c + 1 ≤ x.1) (hhead : ∀ x ∈ K.head?, x.1 < m)
    (h : visits (itemToValue item) c ++ (visitsList (itemsToValues items) (c + 1) ++ K)
      = visits (astToDict t) c ++ K') : False := by
  obtain ⟨cls, fields⟩ := t
  obtain ⟨fs, hfs, hfields⟩ := ht
  rw [visits_astToDict (hfields.nodup hfs)] at h
  -- a leaf is one node, so the rest of the AST is what follows the leaf
  have htail : visitsList (itemsToValues items) (c + 1) ++ K
      = visits (tagValue cls fields) (c + 1)
        ++ (visitsItems (fieldItems (otherFields fields)) c (c + 1 + size (tagValue cls fields))
          ++ K') := by
    rw [List.cons_append, List.append_assoc] at h
    cases item with
    | ast t => exact absurd rfl (hleaf t)
    | str s => exact (List.cons.inj h).2
    | other a => exact (List.cons.inj h).2
  cases hrest : otherFields fields with
  | cons f rest =>
    -- another key would hang from `c`, but nothing that follows does
    have hkey : (c, f.1) ∈ visitsList (itemsToValues items) (c + 1) ++ K := by
      rw [htail, hrest]
      simp [fieldItems, visitsItems]
    rcases List.mem_append.mp hkey with hx | hx
    · have := le_of_mem_visitsList _ hx
      omega
    · have := hK _ hx
      omega
  | nil =>
    -- without another key, the AST is its tag and its name
    have hnil : otherFields fs = [] := hfields.otherFields_eq_nil_iff.mp hrest
    obtain ⟨hnone, hcls⟩ := hS.bareClass hlist cls fs hfs hnil
    have htag : tagValue cls fields = .str cls := by
      rcases hfields.typeField with ⟨hnone', -⟩ | ⟨value, kind, -, hkind, -⟩
      · exact tagValue_of_none hnone' cls
      · rw [hnone] at hkind
        cases hkind
    rw [htag, visits, List.cons_append] at htail
    cases items with
    | nil =>
      -- the name would come after the end of the list
      have := hhead (c + 1, cls) (by
        rw [itemsToValues, visitsList, List.nil_append] at htail
        rw [htail]
        rfl)
      omega
    | cons item₂ items =>
      -- the name would be the label of the next element
      obtain ⟨label, rest, hvisits, hlabel⟩ := visits_item hitems.1 (c + 1)
      rw [itemsToValues, visitsList, hvisits] at htail
      obtain rfl : label = cls := (Prod.mk.inj (List.cons.inj htail).1).2
      exact hcls hlabel

/-! ### Reading an AST -/

/-- Encodings of fewer than `N` nodes can be undone, whatever comes after. -/
def Decodes (α : Type) [ToString α] (S : Signature) (N : ℕ) : Prop :=
  ∀ (t t' : Ast α) (o : ℕ) (K K' : List (ℕ × String)), size (astToDict t) < N →
    S.Fits t → S.Fits t' → Cont S o (o + size (astToDict t)) K →
    Cont S o (o + size (astToDict t')) K' →
    visits (astToDict t) o ++ K = visits (astToDict t') o ++ K' → t = t' ∧ K = K'

variable {N : ℕ}

/-- **One element of a list.** It is read with the elements after it still to come. -/
theorem item_inj (hS : S.Unambiguous α) (hlist : S.HasList)
    (hinj : Function.Injective (toString : α → String)) (ih : Decodes α S N)
    {item item' : AstItem α} {items items' : List (AstItem α)}
    (hfit : S.FitsItems (item :: items)) (hfit' : S.FitsItems (item' :: items'))
    (hsize : size (itemToValue item) < N) {m c : ℕ} (hm : m ≤ c)
    (hK : ∀ x ∈ K, x.1 < m
      ∨ c + size (itemToValue item) + sizeList (itemsToValues items) ≤ x.1)
    (hK' : ∀ x ∈ K', x.1 < m
      ∨ c + size (itemToValue item') + sizeList (itemsToValues items') ≤ x.1)
    (hhead : ∀ x ∈ K.head?, x.1 < m) (hhead' : ∀ x ∈ K'.head?, x.1 < m)
    (h : visits (itemToValue item) c
        ++ (visitsList (itemsToValues items) (c + size (itemToValue item)) ++ K)
      = visits (itemToValue item') c
        ++ (visitsList (itemsToValues items') (c + size (itemToValue item')) ++ K')) :
    item = item'
      ∧ visitsList (itemsToValues items) (c + size (itemToValue item)) ++ K
        = visitsList (itemsToValues items') (c + size (itemToValue item')) ++ K' := by
  rcases item.ast_or_leaf with ⟨t, rfl⟩ | hleaf
  · rcases item'.ast_or_leaf with ⟨t', rfl⟩ | hleaf'
    · -- two ASTs: the encodings are smaller than the list's
      have hcont := Cont.list hlist hK hm
      have hcont' := Cont.list hlist hK' hm
      rw [itemToValue] at hsize hcont hcont' h ⊢
      rw [itemToValue] at h ⊢
      obtain ⟨rfl, hrest⟩ := ih t t' c _ _ hsize hfit.1 hfit'.1 hcont hcont' h
      exact ⟨rfl, hrest⟩
    · rw [size_leaf hleaf'] at hK' h
      exact (leaf_ne_ast hS hlist hleaf' hfit'.2 hfit.1 hm
        (fun x hx => by have := hK' x hx; omega) hhead' h.symm).elim
  · rcases item'.ast_or_leaf with ⟨t', rfl⟩ | hleaf'
    · rw [size_leaf hleaf] at hK h
      exact (leaf_ne_ast hS hlist hleaf hfit.2 hfit'.1 hm
        (fun x hx => by have := hK x hx; omega) hhead h).elim
    · exact leaf_inj hinj hfit.1 hfit'.1 hleaf hleaf' h

/-- **Lists.** They are read element by element up to a visit below `m`. -/
theorem items_inj (hS : S.Unambiguous α) (hlist : S.HasList)
    (hinj : Function.Injective (toString : α → String)) (ih : Decodes α S N)
    {items items' : List (AstItem α)} (hfit : S.FitsItems items) (hfit' : S.FitsItems items')
    (hsize : sizeList (itemsToValues items) < N) {m c : ℕ} (hm : m ≤ c)
    (hK : ∀ x ∈ K, x.1 < m ∨ c + sizeList (itemsToValues items) ≤ x.1)
    (hK' : ∀ x ∈ K', x.1 < m ∨ c + sizeList (itemsToValues items') ≤ x.1)
    (hhead : ∀ x ∈ K.head?, x.1 < m) (hhead' : ∀ x ∈ K'.head?, x.1 < m)
    (h : visitsList (itemsToValues items) c ++ K = visitsList (itemsToValues items') c ++ K') :
    items = items' ∧ K = K' := by
  induction items generalizing items' c with
  | nil =>
    cases items' with
    | nil => exact ⟨rfl, h⟩
    | cons item' items' =>
      -- an element starts at `c`, and the end of the list below `m`
      obtain ⟨label, rest, hvisits, -⟩ := visits_item hfit'.1 c
      rw [itemsToValues, itemsToValues, visitsList, visitsList, hvisits, List.nil_append] at h
      have := hhead (c, label) (by rw [h]; rfl)
      omega
  | cons item items ihItems =>
    cases items' with
    | nil =>
      obtain ⟨label, rest, hvisits, -⟩ := visits_item hfit.1 c
      rw [itemsToValues, itemsToValues, visitsList, visitsList, hvisits, List.nil_append] at h
      have := hhead' (c, label) (by rw [← h]; rfl)
      omega
    | cons item' items' =>
      rw [itemsToValues, sizeList] at hsize hK hK'
      rw [← Nat.add_assoc] at hK hK'
      rw [itemsToValues, itemsToValues, visitsList, visitsList, List.append_assoc,
        List.append_assoc] at h
      obtain ⟨rfl, hrest⟩ := item_inj hS hlist hinj ih hfit hfit' (by omega) hm hK hK' hhead
        hhead' h
      obtain ⟨rfl, hKK⟩ := ihItems hfit.2 hfit'.2 (by omega) (by omega) hK hK' hrest
      exact ⟨rfl, hKK⟩

/-- The tag of an AST is not the label of an absent node. -/
theorem ast_ne_other {t : Ast α} (ht : S.Fits t) (a : α) {c : ℕ} {L L' : List (ℕ × String)} :
    visits (astToDict t) c ++ L ≠ (c, otherLabel a) :: L' := by
  intro heq
  obtain ⟨rest, hrest⟩ := visits_ast ht c
  rw [hrest] at heq
  have hlabel : "type" = otherLabel a := (Prod.mk.inj (List.cons.inj heq).1).2
  exact not_plain_otherLabel a (hlabel ▸ plain_type)

/-- **Fields.** A list is read only if what comes after starts below it. -/
theorem field_inj (hS : S.Unambiguous α) (hinj : Function.Injective (toString : α → String))
    (ih : Decodes α S N) {value value' : AstField α} {kind : FieldKind}
    (hfit : S.FitsField value kind) (hfit' : S.FitsField value' kind)
    (hsize : size (fieldToValue value) < N) {c : ℕ}
    (hK : Cont S c (c + size (fieldToValue value)) K)
    (hK' : Cont S c (c + size (fieldToValue value')) K')
    (hlist : kind = .list →
      S.HasList ∧ (∀ x ∈ K.head?, x.1 < c) ∧ ∀ x ∈ K'.head?, x.1 < c)
    (h : visits (fieldToValue value) c ++ K = visits (fieldToValue value') c ++ K') :
    value = value' ∧ K = K' := by
  cases kind with
  | list =>
    obtain ⟨hhas, hhead, hhead'⟩ := hlist rfl
    cases value with
    | one item => exact hfit.elim
    | list items =>
      cases value' with
      | one item => exact hfit'.elim
      | list items' =>
        obtain ⟨rfl, hKK⟩ := items_inj hS hhas hinj ih hfit hfit' hsize le_rfl hK.apart
          hK'.apart hhead hhead' h
        exact ⟨rfl, hKK⟩
  | leaf =>
    cases value with
    | list items => exact hfit.elim
    | one item =>
      cases value' with
      | list items => exact hfit'.elim
      | one item' =>
        obtain ⟨rfl, hKK⟩ := leaf_inj hinj hfit.1 hfit'.1 hfit.2 hfit'.2 h
        exact ⟨rfl, hKK⟩
  | node =>
    cases value with
    | list items => exact hfit.elim
    | one item =>
      cases value' with
      | list items => exact hfit'.elim
      | one item' =>
        suffices hitem : item = item' ∧ K = K' by
          obtain ⟨rfl, hKK⟩ := hitem
          exact ⟨rfl, hKK⟩
        cases item with
        | str s => exact absurd rfl (hfit.2 s)
        | ast t =>
          cases item' with
          | str s => exact absurd rfl (hfit'.2 s)
          | ast t' =>
            obtain ⟨rfl, hKK⟩ := ih t t' c K K' hsize hfit.1 hfit'.1 hK hK' h
            exact ⟨rfl, hKK⟩
          | other a => exact absurd h (ast_ne_other hfit.1 a)
        | other a =>
          cases item' with
          | str s => exact absurd rfl (hfit'.2 s)
          | ast t => exact absurd h.symm (ast_ne_other hfit'.1 a)
          | other a' =>
            exact leaf_inj hinj hfit.1 hfit'.1 (fun t => nofun) (fun t => nofun) h

/-- If there is another field, its key hangs from the owner. -/
theorem head_fieldItems {fields : List (String × AstField α)} (hne : fields ≠ [])
    {owner d : ℕ} : ∀ x ∈ (visitsItems (fieldItems fields) owner d ++ K).head?, x.1 = owner := by
  obtain ⟨⟨key, value⟩, rest, rfl⟩ := List.exists_cons_of_ne_nil hne
  intro x hx
  obtain rfl : x = (owner, key) := (Option.some.inj hx).symm
  rfl

/-- **The remaining fields**, where the last one is not a list. -/
theorem fieldItems_inj (hS : S.Unambiguous α)
    (hinj : Function.Injective (toString : α → String)) (ih : Decodes α S N)
    {fields fields' : List (String × AstField α)} {fs : List (String × FieldKind)}
    (hfit : S.FitsFields fields fs) (hfit' : S.FitsFields fields' fs)
    (hsize : sizeItems (fieldItems fields) < N) (hhas : ∀ f ∈ fs, f.2 = .list → S.HasList)
    (hlast : ∀ f ∈ fs.getLast?, f.2 ≠ .list) {owner c : ℕ} (hc : owner ≤ c)
    (hK : Cont S owner (c + sizeItems (fieldItems fields)) K)
    (hK' : Cont S owner (c + sizeItems (fieldItems fields')) K')
    (h : visitsItems (fieldItems fields) owner c ++ K
      = visitsItems (fieldItems fields') owner c ++ K') :
    fields = fields' ∧ K = K' := by
  match fields, fields', fs with
  | [], [], _ => exact ⟨rfl, h⟩
  | (name, value) :: fields, (name', value') :: fields', (name'', kind) :: fs =>
    obtain ⟨rfl, hvalue, hrest⟩ := hfit
    obtain ⟨rfl, hvalue', hrest'⟩ := hfit'
    rw [fieldItems, List.map_cons, sizeItems] at hsize hK hK'
    rw [fieldItems, fieldItems, List.map_cons, List.map_cons, visitsItems, visitsItems,
      List.cons_append, List.cons_append, List.append_assoc, List.append_assoc] at h
    rw [← Nat.add_assoc, ← Nat.add_assoc] at hK hK'
    dsimp only at hsize hK hK' h
    -- a list is not the last field, so a key of the owner comes after it
    have hne : kind = .list → ∀ {fields : List (String × AstField α)}, S.FitsFields fields fs →
        fields ≠ [] := by
      rintro hkind fields hfields rfl
      obtain rfl : fs = [] := List.map_eq_nil_iff.mp hfields.map_fst.symm
      exact hlast _ rfl hkind
    obtain ⟨rfl, hrest₂⟩ := field_inj hS hinj ih hvalue hvalue' (by omega)
      (hK.items (by omega) le_rfl) (hK'.items (by omega) le_rfl)
      (fun hkind => ⟨hhas _ List.mem_cons_self hkind,
        fun x hx => by have := head_fieldItems (hne hkind hrest) x hx; omega,
        fun x hx => by have := head_fieldItems (hne hkind hrest') x hx; omega⟩)
      (List.cons.inj h).2
    obtain ⟨rfl, hKK⟩ := fieldItems_inj hS hinj ih hrest hrest' (by rw [fieldItems]; omega)
      (fun f hf => hhas f (List.mem_cons_of_mem _ hf))
      (fun f hf => hlast f (by rw [List.getLast?_cons, Option.mem_def.mp hf]; rfl))
      (by omega) hK hK' hrest₂
    exact ⟨rfl, hKK⟩
  | [], _ :: _, [] => exact hfit'.elim
  | [], _ :: _, _ :: _ => exact hfit.elim
  | _ :: _, [], [] => exact hfit.elim
  | _ :: _, [], _ :: _ => exact hfit'.elim
  | _ :: _, _ :: _, [] => exact hfit.elim

/-- A class name and the other keys of its owner are not an AST under the tag. -/
theorem name_ne_ast (hS : S.Unambiguous α) {cls : String} {fs : List (String × FieldKind)}
    (hfs : S.fields cls = some fs) {t : Ast α} (ht : S.Fits t)
    {items : List (String × Value α)} (hnil : items = [] → otherFields fs = []) {o : ℕ}
    (hK : Cont S o (o + 2 + sizeItems items) K)
    (h : (o + 1, cls) :: (visitsItems items o (o + 2) ++ K)
      = visits (astToDict t) (o + 1) ++ K') : False := by
  -- the tag of the AST is its first node, and there is a second one
  obtain ⟨rest, hvisits⟩ := visits_ast ht (o + 1)
  have htwo := hS.two_le_size ht
  rw [← length_visits _ (o + 1), hvisits, List.length_cons] at htwo
  obtain ⟨⟨p, l⟩, rest', rfl⟩ :=
    List.exists_cons_of_ne_nil (List.length_pos_iff.mp (show 0 < rest.length by omega))
  have hp : o + 1 ≤ p := le_of_mem_visits (astToDict t) (x := (p, l)) (by rw [hvisits]; simp)
  rw [hvisits] at h
  obtain ⟨hcls, htail⟩ := List.cons.inj h
  obtain rfl : cls = "type" := (Prod.mk.inj hcls).2
  cases items with
  | cons item items =>
    -- after the class name comes a key of the owner
    obtain ⟨key, value⟩ := item
    have : o = p := (Prod.mk.inj (List.cons.inj htail).1).1
    omega
  | nil =>
    have hmem : (p, l) ∈ K.head? := by
      rw [visitsItems, List.nil_append] at htail
      rw [htail]
      rfl
    by_cases hlist : S.HasList
    · -- the class is bare, and `"type"` is the label of a leaf
      exact (hS.bareClass hlist _ fs hfs (hnil rfl)).2 (Or.inl plain_type)
    · have := hK.head hlist _ hmem
      omega

/-- **A class name is not the content of a field called `"type"`**, where that field
cannot hold a leaf with this label. -/
theorem tag_ne_class (hS : S.Unambiguous α) {cls : String} {fs : List (String × FieldKind)}
    (hfs : S.fields cls = some fs) {value : AstField α} {kind : FieldKind}
    (hfit : S.FitsField value kind) (hhold : ¬ kind.CanHold α cls)
    {items items' : List (String × Value α)} (hnil : items = [] → otherFields fs = [])
    (hnil' : kind = .list → items' ≠ []) {o d : ℕ} (hK : Cont S o (o + 2 + sizeItems items) K)
    (h : (o + 1, cls) :: (visitsItems items o (o + 2) ++ K)
      = visits (fieldToValue value) (o + 1) ++ (visitsItems items' o d ++ K')) : False := by
  cases value with
  | list elems =>
    cases kind with
    | node => exact hfit.elim
    | leaf => exact hfit.elim
    | list =>
      cases elems with
      | nil =>
        -- what comes next is a key of the owner, not of the tag
        obtain ⟨⟨key, value⟩, items'', rfl⟩ := List.exists_cons_of_ne_nil (hnil' rfl)
        rw [fieldToValue, itemsToValues, visits, visitsList, List.nil_append, visitsItems] at h
        have : o + 1 = o := (Prod.mk.inj (List.cons.inj h).1).1
        omega
      | cons item elems =>
        obtain ⟨label, rest, hvisits, hlabel⟩ := visits_item hfit.1 (o + 1)
        rw [fieldToValue, itemsToValues, visits, visitsList, hvisits] at h
        obtain rfl : cls = label := (Prod.mk.inj (List.cons.inj h).1).2
        exact hhold hlabel
  | one item =>
    cases item with
    | str s =>
      obtain rfl : cls = s := (Prod.mk.inj (List.cons.inj h).1).2
      cases kind with
      | list => exact hfit.elim
      | node => exact hfit.2 cls rfl
      | leaf => exact hhold (Or.inl hfit.1)
    | other a =>
      obtain rfl : cls = otherLabel a := (Prod.mk.inj (List.cons.inj h).1).2
      cases kind with
      | list => exact hfit.elim
      | node => exact hhold ⟨a, rfl⟩
      | leaf => exact hhold (Or.inr ⟨a, rfl⟩)
    | ast t =>
      cases kind with
      | list => exact hfit.elim
      | leaf => exact hfit.2 t rfl
      | node => exact name_ne_ast hS hfs hfit.1 hnil hK h

/-- A class written with its tag last does not have a list there. -/
theorem Signature.Unambiguous.typeField_ne_list (hS : S.Unambiguous α) {cls : String}
    {fs : List (String × FieldKind)} (hfs : S.fields cls = some fs)
    (htype : typeField fs = some .list) : otherFields fs ≠ [] := by
  intro hnil
  exact hS.lastNotList cls fs hfs ("type", .list) (by rw [writtenFields, hnil, htype]; rfl) rfl

section ClassEq

variable {cls cls' : String} {fields fields' : List (String × AstField α)}
  {fs fs' : List (String × FieldKind)} {o : ℕ}

/-- The encoding after the key `"type"`. -/
def afterType (cls : String) (fields : List (String × AstField α)) (o : ℕ) :
    List (ℕ × String) :=
  visits (tagValue cls fields) (o + 1)
    ++ visitsItems (fieldItems (otherFields fields)) o (o + 1 + size (tagValue cls fields))

/-- Only one of two classes with the same other fields has a field called `"type"`. -/
theorem typeField_absurd (hS : S.Unambiguous α) (hfs : S.fields cls = some fs)
    (hfs' : S.fields cls' = some fs') (hfit : S.FitsFields fields fs)
    (hfit' : S.FitsFields fields' fs') (hK : Cont S o (o + size (astToDict (.node cls fields))) K)
    (hnames : (otherFields fs).map Prod.fst = (otherFields fs').map Prod.fst)
    (hne : cls ≠ cls') (hnone : typeField fields = none) {value : AstField α} {kind : FieldKind}
    (hvalue : typeField fields' = some value) (hkind : typeField fs' = some kind)
    (hvaluefit : S.FitsField value kind)
    (h : afterType cls fields o ++ K = afterType cls' fields' o ++ K') : False := by
  rw [size_astToDict (hfit.nodup hfs), tagValue_of_none hnone, size, ← Nat.add_assoc,
    ← Nat.add_assoc] at hK
  rw [afterType, afterType, tagValue_of_none hnone, tagValue_of_some hvalue, List.append_assoc,
    List.append_assoc] at h
  refine tag_ne_class hS hfs hvaluefit (hS.tags cls cls' fs fs' hfs hfs' hne hnames kind hkind).2
    (fun hnil => hfit.otherFields_eq_nil_iff.mp (List.map_eq_nil_iff.mp hnil))
    (fun hlist hnil => ?_) hK h
  exact hS.typeField_ne_list hfs' (hlist ▸ hkind)
    (hfit'.otherFields_eq_nil_iff.mp (List.map_eq_nil_iff.mp hnil))

/-- **The class is determined.** -/
theorem class_eq (hS : S.Unambiguous α) (hfs : S.fields cls = some fs)
    (hfs' : S.fields cls' = some fs') (hfit : S.FitsFields fields fs)
    (hfit' : S.FitsFields fields' fs') (hK : Cont S o (o + size (astToDict (.node cls fields))) K)
    (hK' : Cont S o (o + size (astToDict (.node cls' fields'))) K')
    (hnames : (otherFields fs).map Prod.fst = (otherFields fs').map Prod.fst)
    (h : afterType cls fields o ++ K = afterType cls' fields' o ++ K') : cls = cls' := by
  by_contra hne
  rcases hfit.typeField with ⟨hnone, -⟩ | ⟨value, kind, hvalue, hkind, hvaluefit⟩
  · rcases hfit'.typeField with ⟨hnone', -⟩ | ⟨value', kind', hvalue', hkind', hvaluefit'⟩
    · -- both names are written
      rw [afterType, afterType, tagValue_of_none hnone, tagValue_of_none hnone'] at h
      exact hne (Prod.mk.inj (List.cons.inj h).1).2
    · exact typeField_absurd hS hfs hfs' hfit hfit' hK hnames hne hnone hvalue' hkind' hvaluefit' h
  · rcases hfit'.typeField with ⟨hnone', -⟩ | ⟨value', kind', -, hkind', -⟩
    · exact typeField_absurd hS hfs' hfs hfit' hfit hK' hnames.symm (Ne.symm hne) hnone' hvalue
        hkind hvaluefit h.symm
    · -- neither name is written, which the signature excludes
      have hnone := (hS.tags cls cls' fs fs' hfs hfs' hne hnames kind' hkind').1
      rw [hkind] at hnone
      cases hnone

end ClassEq

/-! ### Every AST -/

/-- The names of the other fields are the keys of the owner. -/
theorem names_eq {owner c c' : ℕ} {items items' : List (String × Value α)}
    (hc : owner ≤ c) (hc' : owner ≤ c') (hK : ∀ x ∈ K, x.1 ≠ owner)
    (hK' : ∀ x ∈ K', x.1 ≠ owner)
    (h : visitsItems items owner c ++ K = visitsItems items' owner c' ++ K') :
    items.map Prod.fst = items'.map Prod.fst := by
  -- only the keys are left when both sides are filtered by the owner
  have hfilter := congrArg (List.filter fun x : ℕ × String => x.1 = owner) h
  have hnil : ∀ {L : List (ℕ × String)}, (∀ x ∈ L, x.1 ≠ owner) →
      L.filter (fun x => x.1 = owner) = [] := by
    intro L hL
    rw [List.filter_eq_nil_iff]
    intro x hx
    simpa using hL x hx
  rw [List.filter_append, List.filter_append, filter_visitsItems items hc,
    filter_visitsItems items' hc', hnil hK, hnil hK', List.append_nil, List.append_nil] at hfilter
  have := congrArg (List.map Prod.snd) hfilter
  rwa [List.map_map, List.map_map] at this

/-- The tag is determined, and with it what follows it. -/
theorem tag_inj (hS : S.Unambiguous α) (ih : Decodes α S N) {cls : String}
    {fields fields' : List (String × AstField α)} {fs : List (String × FieldKind)}
    (hfs : S.fields cls = some fs) (hfit : S.FitsFields fields fs)
    (hfit' : S.FitsFields fields' fs) (hsize : size (tagValue cls fields) < N) {o : ℕ}
    (hK : Cont S o (o + 1 + size (tagValue cls fields)
      + sizeItems (fieldItems (otherFields fields))) K)
    (hK' : Cont S o (o + 1 + size (tagValue cls fields')
      + sizeItems (fieldItems (otherFields fields'))) K')
    (h : afterType cls fields o ++ K = afterType cls fields' o ++ K') :
    typeField fields = typeField fields'
      ∧ visitsItems (fieldItems (otherFields fields)) o (o + 1 + size (tagValue cls fields)) ++ K
        = visitsItems (fieldItems (otherFields fields')) o (o + 1 + size (tagValue cls fields'))
          ++ K' := by
  rw [afterType, afterType, List.append_assoc, List.append_assoc] at h
  rcases hfit.typeField with ⟨hnone, hfsnone⟩ | ⟨value, kind, hvalue, hkind, hvaluefit⟩
  · rcases hfit'.typeField with ⟨hnone', -⟩ | ⟨value', kind', -, hkind', -⟩
    · rw [hnone, hnone']
      rw [tagValue_of_none hnone, tagValue_of_none hnone'] at h ⊢
      exact ⟨rfl, (List.cons.inj h).2⟩
    · rw [hfsnone] at hkind'
      cases hkind'
  · rcases hfit'.typeField with ⟨-, hfsnone⟩ | ⟨value', kind', hvalue', hkind', hvaluefit'⟩
    · rw [hfsnone] at hkind
      cases hkind
    · obtain rfl : kind = kind' := Option.some.inj (hkind.symm.trans hkind')
      have hmem := mem_of_typeField hkind
      rw [tagValue_of_some hvalue, tagValue_of_some hvalue'] at h ⊢
      rw [tagValue_of_some hvalue] at hK hsize
      rw [tagValue_of_some hvalue'] at hK'
      -- a list has another key after it, which hangs from the owner
      have hhead : kind = .list → ∀ {K : List (ℕ × String)} {fields d},
          S.FitsFields (α := α) fields fs →
          ∀ x ∈ (visitsItems (fieldItems (otherFields fields)) o d ++ K).head?, x.1 < o + 1 := by
        intro hlist K fields d hfields x hx
        have hne := hS.typeField_ne_list hfs (hlist ▸ hkind)
        have := head_fieldItems (fun hnil => hne (hfields.otherFields_eq_nil_iff.mp hnil)) x hx
        omega
      obtain ⟨rfl, hrest⟩ := field_inj hS (hS.leaves ⟨cls, fs, hfs, List.ne_nil_of_mem hmem⟩) ih
        hvaluefit hvaluefit' hsize (hK.items (by omega) le_rfl) (hK'.items (by omega) le_rfl)
        (fun hlist => ⟨⟨cls, fs, "type", hfs, hlist ▸ hmem⟩, hhead hlist hfit, hhead hlist hfit'⟩) h
      exact ⟨hvalue.trans hvalue'.symm, hrest⟩

/-- The other fields are determined. -/
theorem otherFields_inj (hS : S.Unambiguous α) (ih : Decodes α S N) {cls : String}
    {fields fields' : List (String × AstField α)} {fs : List (String × FieldKind)}
    (hfs : S.fields cls = some fs) (hfit : S.FitsFields fields fs)
    (hfit' : S.FitsFields fields' fs) (hsize : sizeItems (fieldItems (otherFields fields)) < N)
    {o c : ℕ} (hc : o ≤ c) (hK : Cont S o (c + sizeItems (fieldItems (otherFields fields))) K)
    (hK' : Cont S o (c + sizeItems (fieldItems (otherFields fields'))) K')
    (h : visitsItems (fieldItems (otherFields fields)) o c ++ K
      = visitsItems (fieldItems (otherFields fields')) o c ++ K') :
    otherFields fields = otherFields fields' ∧ K = K' := by
  by_cases hnil : otherFields fs = []
  · rw [hfit.otherFields_eq_nil_iff.mpr hnil, hfit'.otherFields_eq_nil_iff.mpr hnil] at h ⊢
    exact ⟨rfl, h⟩
  · have hfield : S.HasField := ⟨cls, fs, hfs, fun hfsnil => hnil (by rw [hfsnil]; rfl)⟩
    refine fieldItems_inj hS (hS.leaves hfield) ih hfit.otherFields hfit'.otherFields hsize
      (fun f hf hlist => ?_) (fun f hf => hS.lastNotList cls fs hfs f ?_) hc hK hK' h
    · obtain ⟨name, kind⟩ := f
      obtain rfl : kind = .list := hlist
      exact ⟨cls, fs, name, hfs, List.mem_of_mem_filter hf⟩
    · rw [writtenFields, List.getLast?_cons, Option.mem_def.mp hf]
      rfl

/-- **Every encoding can be undone.** -/
theorem decodes (hS : S.Unambiguous α) (N : ℕ) : Decodes α S N := by
  induction N with
  | zero => exact fun t t' o K K' hsize => absurd hsize (Nat.not_lt_zero _)
  | succ N ih =>
    intro t t' o K K' hsize hfit hfit' hK hK' h
    obtain ⟨cls, fields⟩ := t
    obtain ⟨cls', fields'⟩ := t'
    obtain ⟨fs, hfs, hfields⟩ := hfit
    obtain ⟨fs', hfs', hfields'⟩ := hfit'
    have hnodup := hfields.nodup hfs
    have hnodup' := hfields'.nodup hfs'
    have hpos := size_astToDict_pos (.node cls fields)
    have hpos' := size_astToDict_pos (.node cls' fields')
    -- the keys are the visits that hang from the counter
    have hnames : (otherFields fs).map Prod.fst = (otherFields fs').map Prod.fst := by
      have hkeys := h
      rw [astToDict_eq hnodup, astToDict_eq hnodup', visits, visits] at hkeys
      have := names_eq le_rfl le_rfl (fun x hx => by have := hK.apart x hx; omega)
        (fun x hx => by have := hK'.apart x hx; omega) hkeys
      rw [List.map_cons, List.map_cons, fieldItems, fieldItems, List.map_map, List.map_map] at this
      rw [← hfields.otherFields.map_fst, ← hfields'.otherFields.map_fst]
      exact (List.cons.inj this).2
    rw [visits_astToDict hnodup, visits_astToDict hnodup'] at h
    have htail : afterType cls fields o ++ K = afterType cls' fields' o ++ K' :=
      (List.cons.inj h).2
    -- first the class, then the tag, then the other fields
    obtain rfl := class_eq hS hfs hfs' hfields hfields' hK hK' hnames htail
    obtain rfl : fs = fs' := Option.some.inj (hfs.symm.trans hfs')
    rw [size_astToDict hnodup] at hsize hK
    rw [size_astToDict hnodup'] at hK'
    rw [← Nat.add_assoc, ← Nat.add_assoc] at hK hK'
    obtain ⟨htype, hrest⟩ := tag_inj hS ih hfs hfields hfields' (by omega) hK hK' htail
    have htag : tagValue cls fields = tagValue cls fields' := by rw [tagValue, tagValue, htype]
    rw [← htag] at hrest hK'
    obtain ⟨hother, hKK⟩ := otherFields_inj hS ih hfs hfields hfields' (by omega) (by omega)
      hK hK' hrest
    obtain rfl := Signature.fields_ext (hfields.map_fst.trans hfields'.map_fst.symm) hnodup
      htype hother
    exact ⟨rfl, hKK⟩

/-- **Faithfulness.** Over an unambiguous signature, equal outputs come from equal
ASTs. -/
theorem eq_of_same_output (hS : S.Unambiguous α) {t t' : Ast α} (hfit : S.Fits t)
    (hfit' : S.Fits t')
    (h : (astDictToIncidenceListAndAttributes (astToDict t)).Same
      (astDictToIncidenceListAndAttributes (astToDict t'))) : t = t' := by
  rw [same_output_iff] at h
  have hnil : ∀ e, Cont S 0 e [] := fun e =>
    ⟨fun x hx => absurd hx List.not_mem_nil, fun _ x hx => absurd hx (Option.not_mem_none x)⟩
  refine (decodes hS _ t t' 0 [] [] (Nat.lt_succ_self _) hfit hfit' (hnil _) (hnil _) ?_).1
  rw [h]

end Arboql
