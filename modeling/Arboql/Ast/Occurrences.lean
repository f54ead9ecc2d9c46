import Arboql.Ast.ClassTags
import Arboql.Ast.LeafLabels
import Arboql.Ast.RootedTree

/-!
# Where a nested value stands in the graph

`process_node` numbers the nodes of a value without a gap, starting from the
counter it is entered with, and what it hangs them from depends on that number
alone. So the graph of a value that is nested in another one is a part of the
other one's graph: the same nodes in the same order, shifted by what was numbered
before (`visits_fill`). Both passes keep this, so the graph of every node of an AST
occurs in the graph of the AST (`subtree_occurs`).

What is numbered after the nested value depends on it through its size only: the
parents that are numbered later are moved along. So replacing one nested value by
another is a local change of the graph (`replace_local`), even where lists are
threaded through the nodes made last.
-/

namespace Arboql

open PreorderTree OrderedDict

/-! ### Values with a hole -/

/-- **A value with a hole**, in the place of a dictionary's value or of a list's
element, at any depth. -/
inductive Context (α : Type) where
  | hole
  | item (before : List (String × Value α)) (key : String) (inner : Context α)
      (after : List (String × Value α))
  | elem (before : List (Value α)) (inner : Context α) (after : List (Value α))

namespace Context

variable {α : Type}

/-- Puts a value into the hole. -/
def fill : Context α → Value α → Value α
  | .hole, u => u
  | .item before key inner after, u => .dict (before ++ (key, inner.fill u) :: after)
  | .elem before inner after, u => .list (before ++ inner.fill u :: after)

/-- The number of nodes before those of the hole, the root not counted. -/
def offset : Context α → ℕ
  | .hole => 0
  | .item before _ inner _ => sizeItems before + 1 + inner.offset
  | .elem before inner _ => sizeList before + inner.offset

/-- The number of nodes after those of the hole. -/
def rest : Context α → ℕ
  | .hole => 0
  | .item _ _ inner after => inner.rest + sizeItems after
  | .elem _ inner after => inner.rest + sizeList after

end Context

section Sizes

variable {α : Type}

theorem sizeItems_append (items items' : List (String × Value α)) :
    sizeItems (items ++ items') = sizeItems items + sizeItems items' := by
  induction items with
  | nil => rw [List.nil_append, sizeItems, Nat.zero_add]
  | cons item items ih =>
    obtain ⟨key, value⟩ := item
    rw [List.cons_append, sizeItems, sizeItems, ih]
    omega

theorem sizeList_append (elems elems' : List (Value α)) :
    sizeList (elems ++ elems') = sizeList elems + sizeList elems' := by
  induction elems with
  | nil => rw [List.nil_append, sizeList, Nat.zero_add]
  | cons child elems ih => rw [List.cons_append, sizeList, sizeList, ih, Nat.add_assoc]

/-- The nodes before the hole, those of the hole, and those after it. -/
theorem size_fill (C : Context α) (u : Value α) :
    size (C.fill u) = C.offset + size u + C.rest := by
  induction C with
  | hole => rw [Context.fill, Context.offset, Context.rest, Nat.zero_add, Nat.add_zero]
  | item before key inner after ih =>
    rw [Context.fill, size, sizeItems_append, sizeItems, ih, Context.offset, Context.rest]
    omega
  | elem before inner after ih =>
    rw [Context.fill, size, sizeList_append, sizeList, ih, Context.offset, Context.rest]
    omega

end Sizes

variable {α : Type} [ToString α]

/-! ### Visits entered elsewhere -/

/-- A visit whose parent is renamed. -/
def renamed (f : ℕ → ℕ) (vs : List (ℕ × String)) : List (ℕ × String) :=
  vs.map fun v => (f v.1, v.2)

mutual

/-- **Entered at another number, a call makes the same visits** under renamed
parents. The renaming has to be right from the number of entry on. -/
theorem visits_renamed (v : Value α) {f : ℕ → ℕ} {c c' : ℕ} (hf : ∀ k, f (c + k) = c' + k) :
    visits v c' = renamed f (visits v c) := by
  cases v with
  -- the keys of a dictionary hang from the number of entry
  | dict items => exact visitsItems_renamed items (hf 0) hf
  | str x => exact congrArg (fun p => [(p, x)]) (hf 0).symm
  | list elems => exact visitsList_renamed elems hf
  | other a => exact congrArg (fun p => [(p, otherLabel a)]) (hf 0).symm

theorem visitsItems_renamed (items : List (String × Value α)) {f : ℕ → ℕ}
    {owner owner' c c' : ℕ} (howner : f owner = owner') (hf : ∀ k, f (c + k) = c' + k) :
    visitsItems items owner' c' = renamed f (visitsItems items owner c) := by
  match items with
  | [] => rfl
  | (key, value) :: items =>
    have hvalue : ∀ k, f (c + 1 + k) = c' + 1 + k := by
      intro k
      rw [Nat.add_assoc, hf, Nat.add_assoc]
    have hrest : ∀ k, f (c + 1 + size value + k) = c' + 1 + size value + k := by
      intro k
      rw [Nat.add_assoc (c + 1), hvalue, Nat.add_assoc (c' + 1)]
    rw [visitsItems, visits_renamed value hvalue, visitsItems_renamed items howner hrest,
      visitsItems, renamed, renamed, renamed, List.map_cons, List.map_append, howner]

theorem visitsList_renamed (elems : List (Value α)) {f : ℕ → ℕ} {c c' : ℕ}
    (hf : ∀ k, f (c + k) = c' + k) : visitsList elems c' = renamed f (visitsList elems c) := by
  match elems with
  | [] => rfl
  | child :: elems =>
    have hrest : ∀ k, f (c + size child + k) = c' + size child + k := by
      intro k
      rw [Nat.add_assoc, hf, Nat.add_assoc]
    rw [visitsList, visits_renamed child hf, visitsList_renamed elems hrest, visitsList, renamed,
      renamed, renamed, List.map_append]

end

theorem visitsList_append (elems elems' : List (Value α)) (c : ℕ) :
    visitsList (elems ++ elems') c
      = visitsList elems c ++ visitsList elems' (c + sizeList elems) := by
  induction elems generalizing c with
  | nil => rw [List.nil_append, visitsList, sizeList, List.nil_append, Nat.add_zero]
  | cons child elems ih =>
    rw [List.cons_append, visitsList, visitsList, sizeList, ih, List.append_assoc, Nat.add_assoc]

namespace Context

/-! ### The visits around the hole -/

/-- The visits before the hole, when the value is entered at `c`. -/
def visitsBefore : Context α → ℕ → List (ℕ × String)
  | .hole, _ => []
  | .item before key inner _, c =>
    visitsItems before c c ++ (c, key) :: inner.visitsBefore (c + sizeItems before + 1)
  | .elem before inner _, c => visitsList before c ++ inner.visitsBefore (c + sizeList before)

/-- The visits after the hole, when the value is entered at `c` and the counter is at
`d` after the hole. -/
def visitsAfter : Context α → ℕ → ℕ → List (ℕ × String)
  | .hole, _, _ => []
  | .item before _ inner after, c, d =>
    inner.visitsAfter (c + sizeItems before + 1) d ++ visitsItems after c (d + inner.rest)
  | .elem before inner after, c, d =>
    inner.visitsAfter (c + sizeList before) d ++ visitsList after (d + inner.rest)

@[simp] theorem length_visitsBefore (C : Context α) (c : ℕ) :
    (C.visitsBefore c).length = C.offset := by
  induction C generalizing c with
  | hole => rfl
  | item before key inner after ih =>
    rw [visitsBefore, List.length_append, length_visitsItems, List.length_cons, ih, offset]
    omega
  | elem before inner after ih =>
    rw [visitsBefore, List.length_append, length_visitsList, ih, offset]

/-- **The visits of a filled hole** are a block of the visits of the whole. -/
theorem visits_fill (C : Context α) (u : Value α) (c : ℕ) :
    visits (C.fill u) c
      = C.visitsBefore c ++ visits u (c + C.offset)
          ++ C.visitsAfter c (c + C.offset + size u) := by
  induction C generalizing c with
  | hole =>
    rw [fill, visitsBefore, visitsAfter, List.nil_append, List.append_nil, offset, Nat.add_zero]
  | item before key inner after ih =>
    have hsize := size_fill inner u
    rw [fill, visits, visitsItems_append, visitsItems, ih, visitsBefore, visitsAfter, offset]
    -- the counter where the inner value is entered, and where it is left
    rw [show c + (sizeItems before + 1 + inner.offset)
        = c + sizeItems before + 1 + inner.offset by omega,
      show c + sizeItems before + 1 + size (inner.fill u)
        = c + sizeItems before + 1 + inner.offset + size u + inner.rest by omega]
    simp only [List.append_assoc, List.cons_append]
  | elem before inner after ih =>
    have hsize := size_fill inner u
    rw [fill, visits, visitsList_append, visitsList, ih, visitsBefore, visitsAfter, offset]
    rw [show c + (sizeList before + inner.offset) = c + sizeList before + inner.offset by omega,
      show c + sizeList before + size (inner.fill u)
        = c + sizeList before + inner.offset + size u + inner.rest by omega]
    simp only [List.append_assoc]

/-- **What comes after the hole** is moved along with the counter. An owner from before
the hole stays what it is. -/
theorem visitsAfter_renamed (C : Context α) {f : ℕ → ℕ} {c d d' : ℕ}
    (hlow : ∀ p, p < c + C.offset → f p = p) (hf : ∀ k, f (d + k) = d' + k) :
    C.visitsAfter c d' = renamed f (C.visitsAfter c d) := by
  induction C generalizing c with
  | hole => rfl
  | item before key inner after ih =>
    rw [offset] at hlow
    have hinner := ih (c := c + sizeItems before + 1) (by
      intro p hp
      exact hlow p (by omega))
    have hafter : ∀ k, f (d + inner.rest + k) = d' + inner.rest + k := by
      intro k
      rw [Nat.add_assoc, hf, Nat.add_assoc]
    -- the owner of the items is numbered before the hole
    rw [visitsAfter, hinner, visitsItems_renamed after (hlow c (by omega)) hafter, visitsAfter,
      renamed, renamed, renamed, List.map_append]
  | elem before inner after ih =>
    rw [offset] at hlow
    have hinner := ih (c := c + sizeList before) (by
      intro p hp
      exact hlow p (by omega))
    have hafter : ∀ k, f (d + inner.rest + k) = d' + inner.rest + k := by
      intro k
      rw [Nat.add_assoc, hf, Nat.add_assoc]
    rw [visitsAfter, hinner, visitsList_renamed after hafter, visitsAfter, renamed, renamed,
      renamed, List.map_append]

end Context

/-! ### Reading the graph off the visits -/

/-- Node `i + 1` hangs from the parent of the visit `i`. -/
theorem mem_edgePairs {t : Value α} {p i : ℕ} :
    (p, i + 1) ∈ edgePairs (astDictToIncidenceListAndAttributes t).edges
      ↔ (visits t 0)[i]?.map Prod.fst = some p := by
  rw [edgePairs_eq, mem_edgeList, ← List.getElem?_map]
  constructor
  · rintro ⟨j, hj, hp⟩
    obtain rfl : i = j := by omega
    exact hp
  · intro hp
    exact ⟨i, rfl, hp⟩

/-- Node `i + 1` has the label of the visit `i`, if there is such a visit. -/
theorem label_succ (t : Value α) (i : ℕ) :
    (astDictToIncidenceListAndAttributes t).label (i + 1)
      = (visits t 0)[i]?.map Prod.snd := by
  have hlabels : (labels t)[i + 1]? = (visits t 0)[i]?.map Prod.snd := by
    rw [labels, List.getElem?_cons_succ, List.getElem?_map]
  cases hlabel : (labels t)[i + 1]? with
  | some label => rw [label_eq hlabel, ← hlabel, hlabels]
  | none =>
    -- there is no such node
    have hkey : i + 1 ∉ (astDictToIncidenceListAndAttributes t).nodes.keys := by
      rw [keys_nodes, List.mem_range, ← length_labels]
      exact Nat.not_lt.mpr (List.getElem?_eq_none_iff.mp hlabel)
    unfold TreeOutput.label
    rw [get?_eq_none_iff.mpr hkey, ← hlabels, hlabel]
    rfl

theorem label_zero (t : Value α) :
    (astDictToIncidenceListAndAttributes t).label 0 = some "_root" :=
  label_eq rfl

namespace Context

variable {C : Context α} {u : Value α} {i : ℕ}

theorem getElem?_before (u : Value α) (hi : i < C.offset) :
    (visits (C.fill u) 0)[i]? = (C.visitsBefore 0)[i]? := by
  rw [visits_fill, List.append_assoc, List.getElem?_append_left]
  rwa [length_visitsBefore]

/-- In the hole stand the visits of its value, shifted. -/
theorem getElem?_inside (hi : i < size u) :
    (visits (C.fill u) 0)[C.offset + i]?
      = (visits u 0)[i]?.map fun v => (C.offset + v.1, v.2) := by
  have hshift : visits u (0 + C.offset) = renamed (C.offset + ·) (visits u 0) :=
    visits_renamed u fun k => by omega
  -- the visit lies behind those before the hole, and before those after it
  have hlen : (C.visitsBefore 0).length ≤ C.offset + i := by
    rw [length_visitsBefore]
    omega
  rw [visits_fill, List.append_assoc, List.getElem?_append_right hlen, length_visitsBefore,
    Nat.add_sub_cancel_left, List.getElem?_append_left (by rwa [length_visits]), hshift, renamed,
    List.getElem?_map]

theorem getElem?_after (u : Value α) (i : ℕ) :
    (visits (C.fill u) 0)[C.offset + size u + i]?
      = (C.visitsAfter 0 (C.offset + size u))[i]? := by
  have hlen : (C.visitsBefore 0 ++ visits u (0 + C.offset)).length = C.offset + size u := by
    rw [List.length_append, length_visitsBefore, length_visits]
  rw [visits_fill, List.getElem?_append_right (by omega), hlen, Nat.add_sub_cancel_left,
    Nat.zero_add]

end Context

/-! ### Occurrences -/

/-- **An occurrence of a graph in a graph.** The nodes of `o'` but its root are the
nodes of `o` that follow the node `a`, with their labels, and hang from one another as
in `o'`, where `a` takes the place of the root. -/
structure TreeOutput.OccursAt (o' o : TreeOutput) (a : ℕ) : Prop where
  /-- There is room for the nodes. -/
  room : a + o'.nodes.length ≤ o.nodes.length
  /-- A node hangs from what it hangs from in `o'`, and from nothing else. -/
  edge : ∀ m, 1 ≤ m → m < o'.nodes.length → ∀ p,
    (p, a + m) ∈ edgePairs o.edges ↔ ∃ q, p = a + q ∧ (q, m) ∈ edgePairs o'.edges
  /-- The labels are the same. -/
  label : ∀ m, 1 ≤ m → m < o'.nodes.length → o.label (a + m) = o'.label m
  /-- The attribute ids may differ, but not in which nodes share one. -/
  attributeId : ∀ m n, 1 ≤ m → m < o'.nodes.length → 1 ≤ n → n < o'.nodes.length →
    (o.attributeId (a + m) = o.attributeId (a + n) ↔ o'.attributeId m = o'.attributeId n)

/-- Two nodes have one attribute id exactly when they read back as one label. -/
theorem attributeId_eq_iff_label {t : Value α} {m n : ℕ} (hm : m ≤ size t) (hn : n ≤ size t) :
    (astDictToIncidenceListAndAttributes t).attributeId m
        = (astDictToIncidenceListAndAttributes t).attributeId n
      ↔ (astDictToIncidenceListAndAttributes t).label m
        = (astDictToIncidenceListAndAttributes t).label n := by
  rw [← Nat.lt_succ_iff, Nat.succ_eq_add_one, ← length_labels] at hm hn
  have hlabel := List.getElem?_eq_getElem hm
  have hlabel' := List.getElem?_eq_getElem hn
  rw [attributeId_eq_iff hlabel hlabel', label_eq hlabel, label_eq hlabel', Option.some_inj]

/-- **A nested value occurs** where its hole is. -/
theorem occursAt_fill (C : Context α) (u : Value α) :
    (astDictToIncidenceListAndAttributes u).OccursAt
      (astDictToIncidenceListAndAttributes (C.fill u)) C.offset := by
  have hsize := size_fill C u
  have hlabel : ∀ m, 1 ≤ m → m < size u + 1 →
      (astDictToIncidenceListAndAttributes (C.fill u)).label (C.offset + m)
        = (astDictToIncidenceListAndAttributes u).label m := by
    intro m hm hlt
    obtain ⟨i, rfl⟩ := Nat.exists_eq_add_of_le' hm
    rw [← Nat.add_assoc, label_succ, label_succ, Context.getElem?_inside (by omega),
      Option.map_map]
    rfl
  constructor
  · rw [length_nodes, length_nodes]
    omega
  · intro m hm hlt p
    rw [length_nodes] at hlt
    -- node `i + 1` is the visit `i`
    obtain ⟨i, rfl⟩ := Nat.exists_eq_add_of_le' hm
    have hi : i < size u := by omega
    rw [← Nat.add_assoc, mem_edgePairs, Context.getElem?_inside hi, Option.map_map,
      Option.map_eq_some_iff]
    constructor
    · rintro ⟨v, hv, rfl⟩
      exact ⟨v.1, rfl, mem_edgePairs.mpr (by rw [hv]; rfl)⟩
    · rintro ⟨q, rfl, hq⟩
      obtain ⟨v, hv, rfl⟩ := Option.map_eq_some_iff.mp (mem_edgePairs.mp hq)
      exact ⟨v, hv, rfl⟩
  · rw [length_nodes]
    exact hlabel
  · intro m n hm hlt hn hlt'
    rw [length_nodes] at hlt hlt'
    -- both sides compare labels, and those are the same
    rw [attributeId_eq_iff_label (by omega) (by omega), hlabel m hm hlt, hlabel n hn hlt',
      attributeId_eq_iff_label (by omega) (by omega)]

/-! ### The nodes of an AST -/

section Subtrees

omit [ToString α]

variable {S : Signature}

/-- Each class has its fields once. -/
theorem Signature.OverFields.nodup {cls : String} {fields : List (String × AstField α)}
    {fs : List (String × FieldKind)} (h : S.OverFields fields fs)
    (hfs : S.fields cls = some fs) : (fields.map Prod.fst).Nodup := by
  rw [h.sameNames.map_fst]
  exact S.nodup cls fs hfs

/-- What is nested in a field is nested in the dictionary of the node, also when the
field is called `"type"`. -/
theorem exists_fill_of_field {cls : String} {fields : List (String × AstField α)}
    (hnodup : (fields.map Prod.fst).Nodup) {name : String} {value : AstField α}
    (hmem : (name, value) ∈ fields) {C : Context α} {u : Value α}
    (hfill : fieldToValue value = C.fill u) :
    ∃ D : Context α, astToDict (.node cls fields) = D.fill u := by
  rw [astToDict_eq hnodup]
  by_cases htype : name = "type"
  · -- the field has taken the place of the class name
    subst htype
    refine ⟨.item [] "type" C (fieldItems (otherFields fields)), ?_⟩
    rw [tagValue_of_some (typeField_of_mem hnodup hmem), hfill]
    rfl
  · have hother : (name, value) ∈ otherFields fields :=
      List.mem_filter.mpr ⟨hmem, by simpa using htype⟩
    obtain ⟨before, after, hsplit⟩ := List.append_of_mem hother
    refine ⟨.item (("type", tagValue cls fields) :: fieldItems before) name C
      (fieldItems after), ?_⟩
    rw [hsplit, fieldItems, List.map_append, List.map_cons, hfill]
    rfl

mutual

/-- **The dictionary of a nested node is nested** in the dictionary of the AST. -/
theorem exists_fill {t u : Ast α} (h : S.Over t) (hu : u ∈ subtrees t) :
    ∃ C : Context α, astToDict t = C.fill (astToDict u) := by
  match t with
  | .node cls fields =>
    rw [subtrees] at hu
    rcases List.mem_cons.mp hu with rfl | hu
    · exact ⟨.hole, rfl⟩
    · obtain ⟨fs, hfs, hfields⟩ := h
      obtain ⟨name, value, C, hmem, hfill⟩ := exists_fill_fields hfields hu
      exact exists_fill_of_field (hfields.nodup hfs) hmem hfill

theorem exists_fill_fields {fields : List (String × AstField α)}
    {fs : List (String × FieldKind)} {u : Ast α} (h : S.OverFields fields fs)
    (hu : u ∈ subtreesFields fields) :
    ∃ name value, ∃ C : Context α,
      (name, value) ∈ fields ∧ fieldToValue value = C.fill (astToDict u) := by
  match fields, fs with
  | [], _ => exact absurd hu (by simp [subtreesFields])
  | (name, value) :: fields, [] => exact h.elim
  | (name, value) :: fields, (name', kind) :: fs =>
    obtain ⟨-, hvalue, hrest⟩ := h
    rw [subtreesFields] at hu
    rcases List.mem_append.mp hu with hu | hu
    · obtain ⟨C, hfill⟩ := exists_fill_value hvalue hu
      exact ⟨name, value, C, List.mem_cons_self, hfill⟩
    · obtain ⟨name₁, value₁, C, hmem, hfill⟩ := exists_fill_fields hrest hu
      exact ⟨name₁, value₁, C, List.mem_cons_of_mem _ hmem, hfill⟩

theorem exists_fill_value {value : AstField α} {kind : FieldKind} {u : Ast α}
    (h : S.OverField value kind) (hu : u ∈ subtreesField value) :
    ∃ C : Context α, fieldToValue value = C.fill (astToDict u) := by
  match value, kind with
  | .one item, .node => exact exists_fill_item h.1 hu
  | .one item, .leaf => exact exists_fill_item h.1 hu
  | .list items, .list =>
    obtain ⟨before, C, after, hsplit⟩ := exists_fill_items h hu
    exact ⟨.elem before C after, congrArg Value.list hsplit⟩
  -- the signature excludes the other cases
  | .one item, .list => exact h.elim
  | .list items, .node => exact h.elim
  | .list items, .leaf => exact h.elim

theorem exists_fill_items {items : List (AstItem α)} {u : Ast α} (h : S.OverItems items)
    (hu : u ∈ subtreesItems items) :
    ∃ before, ∃ C : Context α, ∃ after,
      itemsToValues items = before ++ C.fill (astToDict u) :: after := by
  match items with
  | [] => exact absurd hu (by simp [subtreesItems])
  | item :: items =>
    rw [subtreesItems] at hu
    rcases List.mem_append.mp hu with hu | hu
    · obtain ⟨C, hfill⟩ := exists_fill_item h.1 hu
      exact ⟨[], C, itemsToValues items, by rw [itemsToValues, hfill, List.nil_append]⟩
    · obtain ⟨before, C, after, hsplit⟩ := exists_fill_items h.2 hu
      exact ⟨itemToValue item :: before, C, after,
        by rw [itemsToValues, hsplit, List.cons_append]⟩

theorem exists_fill_item {item : AstItem α} {u : Ast α} (h : S.OverItem item)
    (hu : u ∈ subtreesItem item) :
    ∃ C : Context α, itemToValue item = C.fill (astToDict u) := by
  match item with
  | .ast t => exact exists_fill h hu
  | .str s => exact absurd hu (by simp [subtreesItem])
  | .other a => exact absurd hu (by simp [subtreesItem])

end

end Subtrees

/-- **The graph of a nested node occurs** in the graph of the AST, as a block of
consecutive nodes. -/
theorem subtree_occurs {S : Signature} {t u : Ast α} (ht : S.Over t) (hu : u ∈ subtrees t) :
    ∃ a, (astDictToIncidenceListAndAttributes (astToDict u)).OccursAt
      (astDictToIncidenceListAndAttributes (astToDict t)) a := by
  obtain ⟨C, hfill⟩ := exists_fill ht hu
  refine ⟨C.offset, ?_⟩
  rw [hfill]
  exact occursAt_fill C (astToDict u)

/-- A statement is found in the graph of its module. -/
theorem subtree_occurs_pass :
    ∃ a, (astDictToIncidenceListAndAttributes
        (astToDict (.node "Pass" [] : Ast PyConst))).OccursAt
      (astDictToIncidenceListAndAttributes (astToDict (moduleOf [passStmt]))) a := by
  refine subtree_occurs (over_moduleOf ⟨over_passStmt, trivial⟩) ?_
  simp [subtrees, subtreesFields, subtreesField, subtreesItems, subtreesItem, moduleOf, passStmt]

/-! ### Replacing a nested value -/

/-- **A local change.** The graph `o'` is the graph `o` with the `n` nodes after the node
`a` replaced by `n'` nodes. Nothing else changes but the numbers of the nodes behind. -/
structure TreeOutput.ReplacedAt (o o' : TreeOutput) (a n n' : ℕ) : Prop where
  count : o.nodes.length + n' = o'.nodes.length + n
  /-- Up to the node `a` nothing changes. -/
  label_before : ∀ m ≤ a, o'.label m = o.label m
  edge_before : ∀ m ≤ a, ∀ p, (p, m) ∈ edgePairs o'.edges ↔ (p, m) ∈ edgePairs o.edges
  /-- The nodes behind keep their labels. -/
  label_after : ∀ k, o'.label (a + n' + k + 1) = o.label (a + n + k + 1)
  /-- They hang from nodes before `a`, or from nodes behind, or from the last node that was
  replaced. -/
  parent_after : ∀ k p, (p, a + n + k + 1) ∈ edgePairs o.edges → p < a ∨ a + n ≤ p
  /-- In the first case they go on to do so. -/
  edge_low : ∀ k p, p < a →
    ((p, a + n' + k + 1) ∈ edgePairs o'.edges ↔ (p, a + n + k + 1) ∈ edgePairs o.edges)
  /-- In the other cases the parent is moved along. -/
  edge_high : ∀ k j, (a + n' + j, a + n' + k + 1) ∈ edgePairs o'.edges
    ↔ (a + n + j, a + n + k + 1) ∈ edgePairs o.edges

section Replace

variable (C : Context α) (u u' : Value α)

/-- The nodes up to the hole do not depend on what is in it. -/
theorem visits_before (i : ℕ) (hi : i < C.offset) :
    (visits (C.fill u') 0)[i]? = (visits (C.fill u) 0)[i]? := by
  rw [Context.getElem?_before u' hi, Context.getElem?_before u hi]

/-- The visits behind the hole, when the value in it is replaced. -/
theorem visits_behind {f : ℕ → ℕ} (hlow : ∀ p, p < C.offset → f p = p)
    (hf : ∀ k, f (C.offset + size u + k) = C.offset + size u' + k) (k : ℕ) :
    (visits (C.fill u') 0)[C.offset + size u' + k]?
      = (visits (C.fill u) 0)[C.offset + size u + k]?.map fun v => (f v.1, v.2) := by
  have hlow' : ∀ p, p < 0 + C.offset → f p = p := by
    intro p hp
    exact hlow p (by omega)
  rw [Context.getElem?_after, Context.getElem?_after, C.visitsAfter_renamed hlow' hf, renamed,
    List.getElem?_map]

/-- A renaming that moves the nodes within the hole only. -/
def Context.movedWithin (p : ℕ) : ℕ :=
  if p < C.offset ∨ C.offset + size u ≤ p then p else p + 1

/-- No node behind hangs from within the hole, its last node apart. -/
theorem parent_behind {k p : ℕ}
    (hp : (visits (C.fill u) 0)[C.offset + size u + k]?.map Prod.fst = some p) :
    p < C.offset ∨ C.offset + size u ≤ p := by
  have hlow : ∀ p, p < C.offset → C.movedWithin u p = p := by
    intro p hp
    exact if_pos (Or.inl hp)
  have hf : ∀ k, C.movedWithin u (C.offset + size u + k) = C.offset + size u + k := by
    intro k
    exact if_pos (Or.inr (Nat.le_add_right _ _))
  -- such a renaming changes no visit behind the hole
  have hsame := congrArg (Option.map Prod.fst) (visits_behind C u u hlow hf k)
  rw [Option.map_map] at hsame
  obtain ⟨v, hv, rfl⟩ := Option.map_eq_some_iff.mp hp
  rw [hv] at hsame
  have hfix : v.1 = C.movedWithin u v.1 := Option.some.inj hsame
  by_contra hinside
  rw [show C.movedWithin u v.1 = v.1 + 1 from if_neg hinside] at hfix
  omega

/-- The edge to a node behind, when the value in the hole is replaced. -/
theorem edge_behind {f : ℕ → ℕ} (hlow : ∀ p, p < C.offset → f p = p)
    (hf : ∀ k, f (C.offset + size u + k) = C.offset + size u' + k) (k : ℕ) {p : ℕ}
    (hp : p < C.offset ∨ C.offset + size u ≤ p) :
    (f p, C.offset + size u' + k + 1)
        ∈ edgePairs (astDictToIncidenceListAndAttributes (C.fill u')).edges
      ↔ (p, C.offset + size u + k + 1)
        ∈ edgePairs (astDictToIncidenceListAndAttributes (C.fill u)).edges := by
  have hhigh : ∀ q, C.offset + size u ≤ q → C.offset ≤ f q := by
    intro q hq
    obtain ⟨j, rfl⟩ := Nat.exists_eq_add_of_le hq
    rw [hf]
    omega
  rw [mem_edgePairs, mem_edgePairs, visits_behind C u u' hlow hf, Option.map_map]
  constructor
  · intro h
    obtain ⟨v, hv, hfv⟩ := Option.map_eq_some_iff.mp h
    replace hfv : f v.1 = f p := hfv
    have hparent : (visits (C.fill u) 0)[C.offset + size u + k]?.map Prod.fst = some v.1 := by
      rw [hv]
      rfl
    -- the renaming is one-to-one on what nodes behind hang from
    have hv₁ : v.1 = p := by
      rcases parent_behind C u hparent with hv₁ | hv₁ <;> rcases hp with hp | hp
      · rwa [hlow _ hv₁, hlow _ hp] at hfv
      · have := hhigh p hp
        rw [hlow _ hv₁] at hfv
        omega
      · have := hhigh _ hv₁
        rw [hlow _ hp] at hfv
        omega
      · obtain ⟨i, hi⟩ := Nat.exists_eq_add_of_le hv₁
        obtain ⟨j, rfl⟩ := Nat.exists_eq_add_of_le hp
        rw [hi, hf, hf] at hfv
        omega
    rw [hparent, hv₁]
  · intro h
    obtain ⟨v, hv, rfl⟩ := Option.map_eq_some_iff.mp h
    rw [hv]
    rfl

/-- The numbers of the nodes outside the hole, when the value in it is replaced. -/
def Context.renumbered (p : ℕ) : ℕ := if p < C.offset then p else p - size u + size u'

omit [ToString α] in
theorem Context.renumbered_behind (k : ℕ) :
    C.renumbered u u' (C.offset + size u + k) = C.offset + size u' + k := by
  rw [renumbered, if_neg (by omega)]
  omega

/-- **Replacing a nested value is a local change.** Both values occur at one and the same
node, and what is not nested in them changes by a renumbering. -/
theorem replace_local :
    ∃ a, (astDictToIncidenceListAndAttributes u).OccursAt
        (astDictToIncidenceListAndAttributes (C.fill u)) a
      ∧ (astDictToIncidenceListAndAttributes u').OccursAt
        (astDictToIncidenceListAndAttributes (C.fill u')) a
      ∧ (astDictToIncidenceListAndAttributes (C.fill u)).ReplacedAt
        (astDictToIncidenceListAndAttributes (C.fill u')) a (size u) (size u') := by
  refine ⟨C.offset, occursAt_fill C u, occursAt_fill C u', ?_⟩
  have hlow : ∀ p, p < C.offset → C.renumbered u u' p = p := fun p hp => if_pos hp
  have hf := C.renumbered_behind u u'
  have hbehind := visits_behind C u u' hlow hf
  constructor
  · rw [length_nodes, length_nodes, size_fill, size_fill]
    omega
  · intro m hm
    cases m with
    | zero => rw [label_zero, label_zero]
    | succ i => rw [label_succ, label_succ, visits_before C u u' i hm]
  · intro m hm p
    cases m with
    | zero =>
      rw [edgePairs_eq, edgePairs_eq, mem_edgeList, mem_edgeList]
      exact iff_of_false (fun h => absurd h.le_length.1 (by simp))
        (fun h => absurd h.le_length.1 (by simp))
    | succ i => rw [mem_edgePairs, mem_edgePairs, visits_before C u u' i hm]
  · intro k
    rw [label_succ, label_succ, hbehind, Option.map_map]
    rfl
  · intro k p hp
    exact parent_behind C u (mem_edgePairs.mp hp)
  · intro k p hp
    have hedge := edge_behind C u u' hlow hf k (Or.inl hp)
    rwa [hlow p hp] at hedge
  · intro k j
    have hedge := edge_behind C u u' hlow hf k (Or.inr (Nat.le_add_right _ j))
    rwa [hf] at hedge

end Replace

end Arboql
