import Arboql.Ast.Faithful
import Arboql.Ast.Listing

/-!
# When the labels of leaves are faithful

The root, the keys, the string leaves and all other leaves share one table of
attributes. A leaf that is not a string is told apart from a string by the
underscore that `process_node` puts in front of it, but a string may begin with
one as well: `_None` is a name. `entries` lists the keys and the leaves behind the
labels, so that "the node of a leaf" has a meaning, and two nodes have the same
attribute exactly when the labels of their entries are equal
(`attributeId_eq_iff`). So leaves are kept apart as long as no string of the value
is the label of another leaf of it, and the root as long as nothing is labelled
like it (`leafFaithful_iff`).
-/

namespace Arboql

open OrderedDict

variable {α : Type}

/-! ### Keys and leaves in order -/

/-- A key or a leaf of a value. -/
inductive Entry (α : Type) where
  | key (s : String)
  | str (s : String)
  | other (a : α)

/-- Leaves are the values that are neither dictionaries nor lists. -/
def Entry.IsLeaf : Entry α → Prop
  | .key _ => False
  | .str _ => True
  | .other _ => True

mutual

/-- The keys and the leaves of a value, in the order of their nodes. -/
def entries : Value α → List (Entry α)
  | .dict items => entriesItems items
  | .str s => [.str s]
  | .list elems => entriesElems elems
  | .other a => [.other a]

def entriesItems : List (String × Value α) → List (Entry α)
  | [] => []
  | (key, value) :: items => .key key :: (entries value ++ entriesItems items)

def entriesElems : List (Value α) → List (Entry α)
  | [] => []
  | child :: elems => entries child ++ entriesElems elems

end

variable [ToString α]

/-- The label of a key or a leaf. -/
def Entry.label : Entry α → String
  | .key s => s
  | .str s => s
  | .other a => otherLabel a

mutual

theorem map_label_entries (v : Value α) : (entries v).map Entry.label = listing v := by
  cases v with
  | dict items => rw [entries, listing, map_label_entriesItems]
  | str s => rfl
  | list elems => rw [entries, listing, map_label_entriesElems]
  | other a => rfl

theorem map_label_entriesItems (items : List (String × Value α)) :
    (entriesItems items).map Entry.label = listingItems items := by
  match items with
  | [] => rfl
  | (key, value) :: items =>
    rw [entriesItems, listingItems, List.map_cons, List.map_append, map_label_entries value,
      map_label_entriesItems items, Entry.label]

theorem map_label_entriesElems (elems : List (Value α)) :
    (entriesElems elems).map Entry.label = listingElems elems := by
  match elems with
  | [] => rfl
  | child :: elems =>
    rw [entriesElems, listingElems, List.map_append, map_label_entries child,
      map_label_entriesElems elems]

end

/-- The node of the `i`-th entry is the `i + 1`-st, after the root. -/
theorem labels_entry {t : Value α} {i : ℕ} {e : Entry α} (h : (entries t)[i]? = some e) :
    (labels t)[i + 1]? = some e.label := by
  rw [labels_eq, List.getElem?_cons_succ, ← map_label_entries, List.getElem?_map, h]
  rfl

@[simp] theorem length_entries (t : Value α) : (entries t).length = size t := by
  have hlen := length_labels t
  rw [labels_eq, List.length_cons, ← map_label_entries, List.length_map] at hlen
  omega

/-! ### Attribute ids -/

omit [ToString α] in
/-- The attribute id of a node. -/
def TreeOutput.attributeId (o : TreeOutput) (m : ℕ) : Option ℕ := (o.nodes.get? m).map Prod.snd

section AttributeId

variable {t : Value α}

/-- There are no nodes beyond the entries. -/
theorem attributeId_eq_none {m : ℕ} (h : size t < m) :
    (astDictToIncidenceListAndAttributes t).attributeId m = none := by
  have hkey : m ∉ (astDictToIncidenceListAndAttributes t).nodes.keys := by
    rw [keys_nodes, List.mem_range]
    omega
  unfold TreeOutput.attributeId
  rw [get?_eq_none_iff.mpr hkey]
  rfl

/-- A node has the id of its label. -/
theorem attributeId_eq {m : ℕ} {label : String} (h : (labels t)[m]? = some label) :
    (astDictToIncidenceListAndAttributes t).attributeId m
      = (astDictToIncidenceListAndAttributes t).attributesLookup.get? label := by
  have hint := interned t
  unfold TreeOutput.attributeId astDictToIncidenceListAndAttributes
  rw [hint.node m label h, hint.get?_lookup_of_mem (List.mem_of_getElem? h)]
  rfl

/-- **Two nodes have one id exactly when they have one label.** -/
theorem attributeId_eq_iff {m m' : ℕ} {label label' : String}
    (h : (labels t)[m]? = some label) (h' : (labels t)[m']? = some label') :
    (astDictToIncidenceListAndAttributes t).attributeId m
        = (astDictToIncidenceListAndAttributes t).attributeId m' ↔ label = label' := by
  constructor
  · intro heq
    rw [attributeId_eq h, attributeId_eq h'] at heq
    have hlook := (interned t).get?_lookup_of_mem (List.mem_of_getElem? h)
    exact (interned t).injective _ _ _ hlook (heq.symm.trans hlook)
  · rintro rfl
    rw [attributeId_eq h, attributeId_eq h']

end AttributeId

/-! ### Faithful leaves -/

/-- **Faithful leaf labels.** Leaves whose nodes have one attribute id are the same
leaf, of the same type, and no node but `0` has the id of the root. -/
structure LeafFaithful (t : Value α) : Prop where
  leaves : ∀ i j x y, (entries t)[i]? = some x → (entries t)[j]? = some y →
    x.IsLeaf → y.IsLeaf →
    (astDictToIncidenceListAndAttributes t).attributeId (i + 1)
      = (astDictToIncidenceListAndAttributes t).attributeId (j + 1) → x = y
  root : ∀ m, m ≠ 0 → (astDictToIncidenceListAndAttributes t).attributeId m
    ≠ (astDictToIncidenceListAndAttributes t).attributesLookup.get? "_root"

/-- **Labels that do not mix.** No string of the value is the label of another leaf
of it, and nothing in it is labelled like the root. -/
structure Unmixed (t : Value α) : Prop where
  strings : ∀ s a, .str s ∈ entries t → .other a ∈ entries t → s ≠ "_" ++ toString a
  root_key : .key "_root" ∉ entries t
  root_str : .str "_root" ∉ entries t
  root_other : ∀ a, .other a ∈ entries t → toString a ≠ "root"

variable {t : Value α}

/-- Nothing but the root has its label when labels do not mix. -/
theorem Unmixed.label_ne (h : Unmixed t) {e : Entry α} (he : e ∈ entries t) :
    e.label ≠ "_root" := by
  intro hlabel
  cases e with
  | key s => exact h.root_key (hlabel ▸ he)
  | str s => exact h.root_str (hlabel ▸ he)
  | other a => exact h.root_other a he ((String.append_right_inj "_").mp hlabel)

/-- An entry that is labelled like the root has the id of the root. -/
theorem LeafFaithful.label_ne (h : LeafFaithful t) {e : Entry α} (he : e ∈ entries t) :
    e.label ≠ "_root" := by
  intro hlabel
  obtain ⟨i, hi⟩ := List.mem_iff_getElem?.mp he
  have hnode := attributeId_eq (labels_entry hi)
  rw [hlabel] at hnode
  exact h.root (i + 1) (Nat.succ_ne_zero i) hnode

theorem LeafFaithful.unmixed (h : LeafFaithful t) : Unmixed t where
  strings s a hs ha hlabel := by
    -- their nodes have one id, so they would be one leaf
    obtain ⟨i, hi⟩ := List.mem_iff_getElem?.mp hs
    obtain ⟨j, hj⟩ := List.mem_iff_getElem?.mp ha
    have hids := (attributeId_eq_iff (labels_entry hi) (labels_entry hj)).mpr hlabel
    cases h.leaves i j _ _ hi hj trivial trivial hids
  root_key hkey := h.label_ne hkey rfl
  root_str hstr := h.label_ne hstr rfl
  root_other a ha hroot := h.label_ne ha (congrArg ("_" ++ ·) hroot)

/-- Leaves with one label are one leaf when labels do not mix. -/
theorem Unmixed.leaf_eq (h : Unmixed t) (hstr : Function.Injective (toString : α → String))
    {x y : Entry α} (hx : x ∈ entries t) (hy : y ∈ entries t) (hxl : x.IsLeaf) (hyl : y.IsLeaf)
    (hlabel : x.label = y.label) : x = y := by
  cases x with
  | key s => exact hxl.elim
  | str s =>
    cases y with
    | key s' => exact hyl.elim
    | str s' => exact congrArg Entry.str hlabel
    | other b => exact absurd hlabel (h.strings s b hx hy)
  | other a =>
    cases y with
    | key s' => exact hyl.elim
    | str s' => exact absurd hlabel.symm (h.strings s' a hy hx)
    | other b => exact congrArg Entry.other (otherLabel_injective hstr hlabel)

theorem Unmixed.leafFaithful (h : Unmixed t)
    (hstr : Function.Injective (toString : α → String)) : LeafFaithful t where
  leaves i j x y hi hj hxl hyl hids :=
    h.leaf_eq hstr (List.mem_of_getElem? hi) (List.mem_of_getElem? hj) hxl hyl
      ((attributeId_eq_iff (labels_entry hi) (labels_entry hj)).mp hids)
  root m hm hids := by
    obtain ⟨i, rfl⟩ := Nat.exists_eq_succ_of_ne_zero hm
    have hroot : (labels t)[0]? = some "_root" := by rw [labels_eq]; rfl
    cases hi : (entries t)[i]? with
    | some e =>
      -- the node of an entry, which would be labelled like the root
      rw [← attributeId_eq hroot, attributeId_eq_iff (labels_entry hi) hroot] at hids
      exact h.label_ne (List.mem_of_getElem? hi) hids
    | none =>
      -- not a node, while the root has an id
      have hlen := List.getElem?_eq_none_iff.mp hi
      rw [length_entries] at hlen
      have hlook := (interned t).get?_lookup_of_mem (List.mem_of_getElem? hroot)
      rw [attributeId_eq_none (show size t < i + 1 by omega)] at hids
      cases hids.trans hlook

/-- **When leaf labels are faithful.** Where `str` separates the leaves that are not
strings: exactly for the values whose labels do not mix. -/
theorem leafFaithful_iff (hstr : Function.Injective (toString : α → String)) (t : Value α) :
    LeafFaithful t ↔ Unmixed t :=
  ⟨LeafFaithful.unmixed, fun h => h.leafFaithful hstr⟩

/-! ### A name that looks like a constant -/

/-- The singletons among Python's constants. -/
inductive PySingleton
  | none
  | true
  | false

/-- `str` on the singletons. -/
instance : ToString PySingleton where
  toString
    | .none => "None"
    | .true => "True"
    | .false => "False"

theorem toString_pySingleton_injective :
    Function.Injective (toString : PySingleton → String) := by
  intro a b h
  cases a <;> cases b <;> first
    | rfl
    | exact absurd h (by decide)

/-- The constant `None`. -/
def noneConstant : Ast PySingleton :=
  .node "Constant" [("value", .one (.other .none)), ("kind", .one (.other .none))]

/-- The program `name = None`. -/
def assignNone (name : String) : Ast PySingleton :=
  .node "Module"
    [("body", .list [.ast (.node "Assign"
        [("targets", .list [.ast (.node "Name"
            [("id", .one (.str name)), ("ctx", .one (.ast (.node "Store" [])))])]),
          ("value", .one (.ast noneConstant)),
          ("type_comment", .one (.other .none))])]),
      ("type_ignores", .list [])]

/-- The equivalence at work on the constant `None`. -/
theorem leafFaithful_iff_none : LeafFaithful (astToDict noneConstant) := by
  have hentries : entries (astToDict noneConstant) = [.key "type", .str "Constant",
    .key "value", .other .none, .key "kind", .other .none] := rfl
  refine (leafFaithful_iff toString_pySingleton_injective _).mpr ⟨?_, ?_, ?_, ?_⟩
  · intro s a hs ha
    rw [hentries] at hs
    obtain rfl : s = "Constant" := by simpa using hs
    cases a <;> decide
  · rw [hentries]
    simp
  · rw [hentries]
    simp
  · intro a ha
    cases a <;> decide

/-- **A clash.** In the program `_None = None` the name and the constant have one
attribute id. -/
theorem underscore_none_clash :
    Function.Injective (toString : PySingleton → String)
      ∧ ¬ LeafFaithful (astToDict (assignNone "_None")) := by
  refine ⟨toString_pySingleton_injective, fun h => ?_⟩
  have hname : (entries (astToDict (assignNone "_None")))[9]? = some (.str "_None") := rfl
  have hvalue : (entries (astToDict (assignNone "_None")))[17]? = some (.other .none) := rfl
  exact h.unmixed.strings _ _ (List.mem_of_getElem? hname) (List.mem_of_getElem? hvalue) rfl

end Arboql
