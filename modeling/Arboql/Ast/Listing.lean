import Arboql.Ast.Visits

/-!
# The labels of the nodes are a depth-first listing

`listing` says what `process_node` is for, without its counters and tables: a
dictionary lists each key and then its value's listing, a list lists its
elements, and a leaf lists its label. The labels in the visits of a value are its
listing, whatever number the call is entered with (`map_snd_visits`). Since the
attribute table is one-to-one and every node has the number of its label, reading
the nodes back through the inverse of the table gives the root and the listing
(`nodes_list_labels`).
-/

namespace Arboql

open OrderedDict

variable {α : Type}

/-! ### Keys and leaves -/

mutual

/-- The number of dictionary keys in a value. -/
def keyCount : Value α → ℕ
  | .dict items => keyCountItems items
  | .str _ => 0
  | .list elems => keyCountElems elems
  | .other _ => 0

def keyCountItems : List (String × Value α) → ℕ
  | [] => 0
  | (_, value) :: items => 1 + keyCount value + keyCountItems items

def keyCountElems : List (Value α) → ℕ
  | [] => 0
  | child :: elems => keyCount child + keyCountElems elems

end

mutual

/-- The number of values in a value that are neither dictionaries nor lists. -/
def leafCount : Value α → ℕ
  | .dict items => leafCountItems items
  | .str _ => 1
  | .list elems => leafCountElems elems
  | .other _ => 1

def leafCountItems : List (String × Value α) → ℕ
  | [] => 0
  | (_, value) :: items => leafCount value + leafCountItems items

def leafCountElems : List (Value α) → ℕ
  | [] => 0
  | child :: elems => leafCount child + leafCountElems elems

end

mutual

/-- Each key and each leaf is a node. -/
theorem size_eq_counts (v : Value α) : size v = keyCount v + leafCount v := by
  cases v with
  | dict items => rw [size, keyCount, leafCount, sizeItems_eq_counts]
  | str s => rfl
  | list elems => rw [size, keyCount, leafCount, sizeList_eq_counts]
  | other a => rfl

theorem sizeItems_eq_counts (items : List (String × Value α)) :
    sizeItems items = keyCountItems items + leafCountItems items := by
  match items with
  | [] => rfl
  | (_, value) :: items =>
    rw [sizeItems, keyCountItems, leafCountItems, size_eq_counts value,
      sizeItems_eq_counts items]
    omega

theorem sizeList_eq_counts (elems : List (Value α)) :
    sizeList elems = keyCountElems elems + leafCountElems elems := by
  match elems with
  | [] => rfl
  | child :: elems =>
    rw [sizeList, keyCountElems, leafCountElems, size_eq_counts child, sizeList_eq_counts elems]
    omega

end

/-! ### The listing -/

variable [ToString α]

mutual

/-- **The depth-first listing** of the keys and leaves of a value. -/
def listing : Value α → List String
  | .dict items => listingItems items
  | .str s => [s]
  | .list elems => listingElems elems
  | .other a => ["_" ++ toString a]

/-- The items of a dictionary: each key, and then its value's listing. -/
def listingItems : List (String × Value α) → List String
  | [] => []
  | (key, value) :: items => key :: (listing value ++ listingItems items)

/-- The elements of a list, in order. -/
def listingElems : List (Value α) → List String
  | [] => []
  | child :: elems => listing child ++ listingElems elems

end

/-! ### The visits list -/

mutual

/-- **The labels visited are the listing.** -/
theorem map_snd_visits (v : Value α) (c : ℕ) : (visits v c).map Prod.snd = listing v := by
  cases v with
  | dict items => rw [visits, listing, map_snd_visitsItems]
  | str s => rfl
  | list elems => rw [visits, listing, map_snd_visitsList]
  | other a => rfl

theorem map_snd_visitsItems (items : List (String × Value α)) (owner c : ℕ) :
    (visitsItems items owner c).map Prod.snd = listingItems items := by
  match items with
  | [] => rfl
  | (key, value) :: items =>
    rw [visitsItems, listingItems, List.map_cons, List.map_append, map_snd_visits value,
      map_snd_visitsItems items]

theorem map_snd_visitsList (elems : List (Value α)) (c : ℕ) :
    (visitsList elems c).map Prod.snd = listingElems elems := by
  match elems with
  | [] => rfl
  | child :: elems =>
    rw [visitsList, listingElems, List.map_append, map_snd_visits child,
      map_snd_visitsList elems]

end

theorem labels_eq (t : Value α) : labels t = "_root" :: listing t := by
  rw [labels, map_snd_visits]

/-! ### Reading the nodes back -/

/-- The label of a node: the attribute whose number in the table the node has. -/
def TreeOutput.label (o : TreeOutput) (m : ℕ) : Option String :=
  (o.nodes.get? m).bind fun attr => o.attributesLookup.keyOf? attr.2

/-- A table of interned labels has each number once. -/
theorem Interned.injective {s : TreeState} {labels : List String} (h : Interned s labels) :
    s.attributesLookup.Injective := by
  intro label label' id hl hl'
  rw [h.get?_lookup] at hl hl'
  exact Option.some.inj (hl.symm.trans hl')

/-- Reading the `m`-th node back gives the `m`-th label. -/
theorem label_eq {t : Value α} {m : ℕ} {label : String} (h : (labels t)[m]? = some label) :
    (astDictToIncidenceListAndAttributes t).label m = some label := by
  have hint := interned t
  have hlook := hint.get?_lookup_of_mem (List.mem_of_getElem? h)
  unfold TreeOutput.label astDictToIncidenceListAndAttributes
  rw [hint.node m label h, Option.bind_some, hint.injective.keyOf?_eq_some_iff]
  exact hlook

/-- **No key or leaf is lost, duplicated or reordered.** The nodes are numbered from
`0` on, the attribute table is one-to-one, and read back through its inverse the
labels of the nodes in order are that of the root and then the depth-first listing
of the value. There is one node for the root, one for each key and one for each
leaf. -/
theorem nodes_list_labels (t : Value α) :
    let o := astDictToIncidenceListAndAttributes t
    o.nodes.keys = List.range o.nodes.length
      ∧ o.attributesLookup.Injective
      ∧ (List.range o.nodes.length).map o.label = ("_root" :: listing t).map some
      ∧ o.nodes.length = 1 + keyCount t + leafCount t := by
  intro o
  have hkeys : o.nodes.keys = List.range (size t + 1) := keys_nodes t
  have hlen : o.nodes.length = size t + 1 := length_nodes t
  refine ⟨by rw [hkeys, hlen], (interned t).injective, ?_, ?_⟩
  · rw [← labels_eq, hlen, ← length_labels]
    refine List.ext_getElem (by simp) fun m hm hm' => ?_
    rw [List.length_map, List.length_range] at hm
    rw [List.getElem_map, List.getElem_range, List.getElem_map]
    exact label_eq (List.getElem?_eq_getElem hm)
  · rw [hlen, size_eq_counts]
    omega

end Arboql
