import Arboql.Lib.OrderedDict
import Mathlib.Data.Nat.Notation

/-!
# From a Python AST to a tree of numbered nodes

`ast_utils.py` has two steps. `ast_to_dict` turns an `ast.AST` object into nested
dictionaries, lists and leaves, under the key `"type"` the name of the class.
`ast_dict_to_incidence_list_and_attributes` numbers the keys and the leaves of
such a value in the order it meets them and returns three dictionaries: the
children of each node, the attribute of each node, and the table of the strings
the attributes stand for.

The type `α` is that of the leaves that are neither strings, lists nor
dictionaries, such as `None`, `True` and the integers; `toString` is Python's
`str` on them.
-/

namespace Arboql

/-- The attribute type of every entry. -/
def ATTR_UNSIGNED : ℕ := 0

/-! ### Values and ASTs -/

/-- **A nested Python value**: what the `isinstance` tests of `process_node` tell
apart. A dictionary is its items in iteration order. -/
inductive Value (α : Type) where
  | dict (items : List (String × Value α))
  | str (s : String)
  | list (elems : List (Value α))
  | other (a : α)

mutual

/-- **An `ast.AST` object**: the name of its class, and its fields as
`ast.iter_fields` yields them. -/
inductive Ast (α : Type) where
  | node (cls : String) (fields : List (String × AstField α))

/-- What a field holds: one item, or a list of items. -/
inductive AstField (α : Type) where
  | one (item : AstItem α)
  | list (items : List (AstItem α))

/-- An `ast.AST` object, a string, or another leaf. -/
inductive AstItem (α : Type) where
  | ast (t : Ast α)
  | str (s : String)
  | other (a : α)

end

variable {α : Type}

/-! ### `ast_to_dict` -/

/-- `node_dict[field] = value`. -/
def dictSet (items : List (String × Value α)) (field : String) (value : Value α) :
    List (String × Value α) :=
  OrderedDict.setItems items field value

mutual

/-- `ast_to_dict`. Its last branch, `repr(node)` for an object that is not an
`ast.AST`, is not reached: every call passes an `ast.AST`. -/
def astToDict : Ast α → Value α
  | .node cls fields => .dict (fieldsToDict [("type", .str cls)] fields)

/-- The loop over `ast.iter_fields(node)`. -/
def fieldsToDict (nodeDict : List (String × Value α)) :
    List (String × AstField α) → List (String × Value α)
  | [] => nodeDict
  | (field, value) :: fields =>
    fieldsToDict (dictSet nodeDict field (fieldToValue value)) fields

/-- What the loop assigns for one field. -/
def fieldToValue : AstField α → Value α
  | .one item => itemToValue item
  | .list items => .list (itemsToValues items)

def itemsToValues : List (AstItem α) → List (Value α)
  | [] => []
  | item :: items => itemToValue item :: itemsToValues items

/-- `ast_to_dict(item) if isinstance(item, ast.AST) else item`. -/
def itemToValue : AstItem α → Value α
  | .ast t => astToDict t
  | .str s => .str s
  | .other a => .other a

end

/-! ### `ast_dict_to_incidence_list_and_attributes` -/

/-- The variables that `process_node` and `get_attribute_id` share. -/
structure TreeState where
  nodeCounter : ℕ
  attributeCounter : ℕ
  /-- `edges`, a `defaultdict(list)`. -/
  edges : OrderedDict ℕ (List (ℕ × ℕ))
  nodes : OrderedDict ℕ (ℕ × ℕ)
  attributesLookup : OrderedDict String ℕ

namespace TreeState

/-- The variables before the first call. -/
def initial : TreeState where
  nodeCounter := 0
  attributeCounter := 0
  edges := .empty
  nodes := .empty
  attributesLookup := .empty

/-- `get_attribute_id`. -/
def getAttributeId (s : TreeState) (label : String) : ℕ × TreeState :=
  match s.attributesLookup.get? label with
  | some id => (id, s)
  | none =>
    -- a new attribute takes the counter's number
    (s.attributeCounter,
      { s with
        attributesLookup := s.attributesLookup.set label s.attributeCounter
        attributeCounter := s.attributeCounter + 1 })

/-- `nodes[node] = (ATTR_UNSIGNED, get_attribute_id(label))`. -/
def setNode (s : TreeState) (node : ℕ) (label : String) : TreeState :=
  let (id, s) := s.getAttributeId label
  { s with nodes := s.nodes.set node (ATTR_UNSIGNED, id) }

/-- The three lines with which a key or a leaf becomes a node: the counter goes
up, the new node is appended to the list of `currentNode`, and its attribute is
recorded. -/
def addChild (s : TreeState) (currentNode : ℕ) (label : String) : TreeState :=
  let s := { s with nodeCounter := s.nodeCounter + 1 }
  let s := { s with edges := s.edges.appendAt currentNode (ATTR_UNSIGNED, s.nodeCounter) }
  s.setNode s.nodeCounter label

end TreeState

section ProcessNode

variable [ToString α]

/-- The label of a leaf that is not a string, `f"_{node}"`. -/
def otherLabel (a : α) : String := "_" ++ toString a

/-- The start of `process_node`: without a `current_node` it is the first call,
which records the root. -/
def enterNode (s : TreeState) : Option ℕ → ℕ × TreeState
  | none => (0, s.setNode 0 "_root")
  | some currentNode => (currentNode, s)

mutual

/-- `process_node`. -/
def processNode (s : TreeState) (node : Value α) (currentNode : Option ℕ) : TreeState :=
  let (currentNode, s) := enterNode s currentNode
  match node with
  -- a rule: its children are processed
  | .dict items => processItems s items currentNode
  -- a leaf
  | .str x => s.addChild currentNode x
  -- the children of a rule; `currentNode` is not passed on
  | .list elems => processChildren s elems
  -- any other type
  | .other a => s.addChild currentNode (otherLabel a)

/-- The loop over the items of a dictionary. -/
def processItems (s : TreeState) (items : List (String × Value α)) (currentNode : ℕ) :
    TreeState :=
  match items with
  | [] => s
  | (key, value) :: items =>
    let s := s.addChild currentNode key
    processItems (processNode s value (some s.nodeCounter)) items currentNode

/-- The loop over the elements of a list. The owner it passes on is the counter. -/
def processChildren (s : TreeState) (elems : List (Value α)) : TreeState :=
  match elems with
  | [] => s
  | child :: elems => processChildren (processNode s child (some s.nodeCounter)) elems

end

/-- What `ast_dict_to_incidence_list_and_attributes` returns. -/
structure TreeOutput where
  edges : OrderedDict ℕ (List (ℕ × ℕ))
  nodes : OrderedDict ℕ (ℕ × ℕ)
  attributesLookup : OrderedDict String ℕ

/-- `ast_dict_to_incidence_list_and_attributes`. -/
def astDictToIncidenceListAndAttributes (astDict : Value α) : TreeOutput :=
  let s := processNode .initial astDict none
  ⟨s.edges, s.nodes, s.attributesLookup⟩

end ProcessNode

end Arboql
