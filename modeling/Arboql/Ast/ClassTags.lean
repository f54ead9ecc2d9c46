import Arboql.Ast.Collisions

/-!
# When `ast_to_dict` keeps the class of a node

`ast_to_dict` writes the name of the class under the key `"type"` and then the
fields over it. A node keeps its class (`KeepsClass`) unless it has a field of that
name which holds something else (`keepsClass_iff`). In Python's grammar there is
one class with such a field, `ExceptHandler`, and the field holds an expression or
nothing, but never a string (`ExceptHandlerGrammar`). So over the grammar the
classes of an AST are kept exactly when no exception handler is in it
(`keepsClasses_iff`).
-/

namespace Arboql

variable {α : Type}

/-! ### Nested nodes -/

mutual

/-- An AST and the AST nodes nested in it, through fields and lists of fields. -/
def subtrees : Ast α → List (Ast α)
  | .node cls fields => .node cls fields :: subtreesFields fields

def subtreesFields : List (String × AstField α) → List (Ast α)
  | [] => []
  | (_, value) :: fields => subtreesField value ++ subtreesFields fields

def subtreesField : AstField α → List (Ast α)
  | .one item => subtreesItem item
  | .list items => subtreesItems items

def subtreesItems : List (AstItem α) → List (Ast α)
  | [] => []
  | item :: items => subtreesItem item ++ subtreesItems items

def subtreesItem : AstItem α → List (Ast α)
  | .ast t => subtrees t
  | .str _ => []
  | .other _ => []

end

theorem mem_subtrees_self (t : Ast α) : t ∈ subtrees t := by
  obtain ⟨cls, fields⟩ := t
  rw [subtrees]
  exact List.mem_cons_self

/-- The class of an AST. -/
def Ast.cls : Ast α → String
  | .node cls _ => cls

/-- The fields of an AST. -/
def Ast.fields : Ast α → List (String × AstField α)
  | .node _ fields => fields

/-! ### Kept classes -/

/-- `value[key]` for a dictionary. -/
def Value.lookup (key : String) : Value α → Option (Value α)
  | .dict items => (items.find? fun item => item.1 = key).map Prod.snd
  | _ => none

/-- **A kept class.** The dictionary of the node has the name of the class under
`"type"` and every field's translation under its name. -/
structure KeepsClass (t : Ast α) : Prop where
  type : (astToDict t).lookup "type" = some (.str t.cls)
  field : ∀ name value, (name, value) ∈ t.fields →
    (astToDict t).lookup name = some (fieldToValue value)

/-- Every class in an AST is kept. -/
def KeepsClasses (t : Ast α) : Prop := ∀ u ∈ subtrees t, KeepsClass u

/-- The field called `"type"` is what is found. -/
theorem typeField_of_mem {fields : List (String × AstField α)}
    (h : (fields.map Prod.fst).Nodup) {value : AstField α} (hmem : ("type", value) ∈ fields) :
    typeField fields = some value :=
  OrderedDict.get?_eq_some_iff (d := ⟨fields, h⟩).mpr hmem

section Lookup

variable {cls : String} {fields : List (String × AstField α)}

/-- Under `"type"` the dictionary has the tag. -/
theorem lookup_type (h : (fields.map Prod.fst).Nodup) :
    (astToDict (.node cls fields)).lookup "type" = some (tagValue cls fields) := by
  rw [astToDict_eq h, Value.lookup, List.find?_cons_of_pos (by simp)]
  rfl

/-- Under the name of another field it has that field's translation. -/
theorem lookup_field (h : (fields.map Prod.fst).Nodup) {name : String} {value : AstField α}
    (hmem : (name, value) ∈ fields) (hname : name ≠ "type") :
    (astToDict (.node cls fields)).lookup name = some (fieldToValue value) := by
  have hother : (name, value) ∈ otherFields fields :=
    List.mem_filter.mpr ⟨hmem, by simpa using hname⟩
  -- after the tag come the other fields, each once
  have hnodup : ((fieldItems (otherFields fields)).map Prod.fst).Nodup := by
    unfold fieldItems
    rw [List.map_map]
    exact h.sublist (List.filter_sublist.map Prod.fst)
  let items : OrderedDict String (Value α) := ⟨fieldItems (otherFields fields), hnodup⟩
  have hget : items.get? name = some (fieldToValue value) :=
    OrderedDict.get?_eq_some_iff.mpr (List.mem_map.mpr ⟨_, hother, rfl⟩)
  rw [astToDict_eq h, Value.lookup, List.find?_cons_of_neg (by simpa using hname.symm)]
  exact hget

/-- **A node keeps its class** unless it has a field called `"type"` that holds
something else than the class name. -/
theorem keepsClass_iff (h : (fields.map Prod.fst).Nodup) :
    KeepsClass (.node cls fields)
      ↔ ∀ value, typeField fields = some value → fieldToValue value = .str cls := by
  constructor
  · intro hkeeps value hvalue
    have htag := (lookup_type h).symm.trans hkeeps.type
    rw [tagValue_of_some hvalue] at htag
    exact Option.some.inj htag
  · intro hall
    have htag : tagValue cls fields = .str cls := by
      cases htype : typeField fields with
      | none => exact tagValue_of_none htype cls
      | some value => exact (tagValue_of_some htype cls).trans (hall value htype)
    refine ⟨by rw [lookup_type h, htag]; rfl, fun name value hmem => ?_⟩
    by_cases hname : name = "type"
    · -- the field holds the class name, so nothing is lost
      subst hname
      have hvalue := hall value (typeField_of_mem h hmem)
      rw [lookup_type h, htag, hvalue]
    · exact lookup_field h hmem hname

end Lookup

/-! ### ASTs over a signature -/

namespace Signature

variable (S : Signature)

mutual

/-- **An AST over the signature**, with any strings for leaves. -/
def Over : Ast α → Prop
  | .node cls fields => ∃ fs, S.fields cls = some fs ∧ OverFields fields fs

/-- The fields have the names and the kinds that the class gives them. -/
def OverFields : List (String × AstField α) → List (String × FieldKind) → Prop
  | [], [] => True
  | (name, value) :: fields, (name', kind) :: fs =>
    name = name' ∧ OverField value kind ∧ OverFields fields fs
  | _, _ => False

def OverField : AstField α → FieldKind → Prop
  | .one item, .node => OverItem item ∧ ∀ s, item ≠ .str s
  | .one item, .leaf => OverItem item ∧ ∀ t, item ≠ .ast t
  | .list items, .list => OverItems items
  | _, _ => False

def OverItems : List (AstItem α) → Prop
  | [] => True
  | item :: items => OverItem item ∧ OverItems items

def OverItem : AstItem α → Prop
  | .ast t => Over t
  | .str _ => True
  | .other _ => True

end

variable {S}

theorem OverField.node {value : AstField α} (h : S.OverField value .node) :
    ∃ item, value = .one item ∧ ∀ s, item ≠ .str s := by
  cases value with
  | one item => exact ⟨item, rfl, h.2⟩
  | list items => exact h.elim

theorem OverFields.sameNames {fields : List (String × AstField α)}
    {fs : List (String × FieldKind)} (h : S.OverFields fields fs) :
    SameNames S.OverField fields fs := by
  match fields, fs with
  | [], [] => exact .nil
  | (name, value) :: fields, (name', kind) :: fs =>
    obtain ⟨hname, hvalue, hrest⟩ := h
    exact .cons ⟨hname, hvalue⟩ hrest.sameNames
  | [], _ :: _ => exact h.elim
  | _ :: _, [] => exact h.elim

mutual

/-- The nodes nested in an AST over the signature are over it. -/
theorem Over.subtrees {t u : Ast α} (h : S.Over t) (hu : u ∈ subtrees t) : S.Over u := by
  match t with
  | .node cls fields =>
    rw [Arboql.subtrees] at hu
    rcases List.mem_cons.mp hu with rfl | hu
    · exact h
    · obtain ⟨fs, -, hfields⟩ := h
      exact hfields.subtrees hu

theorem OverFields.subtrees {fields : List (String × AstField α)}
    {fs : List (String × FieldKind)} {u : Ast α} (h : S.OverFields fields fs)
    (hu : u ∈ subtreesFields fields) : S.Over u := by
  match fields, fs with
  | [], [] => exact absurd hu (by simp [subtreesFields])
  | (name, value) :: fields, (name', kind) :: fs =>
    obtain ⟨-, hvalue, hrest⟩ := h
    rw [subtreesFields] at hu
    rcases List.mem_append.mp hu with hu | hu
    · exact OverField.subtrees hvalue hu
    · exact hrest.subtrees hu
  | [], _ :: _ => exact h.elim
  | _ :: _, [] => exact h.elim

theorem OverField.subtrees {value : AstField α} {kind : FieldKind} {u : Ast α}
    (h : S.OverField value kind) (hu : u ∈ subtreesField value) : S.Over u := by
  match value, kind with
  | .one item, .node => exact OverItem.subtrees h.1 hu
  | .one item, .leaf => exact OverItem.subtrees h.1 hu
  | .list items, .list => exact OverItems.subtrees h hu
  | .one item, .list => exact h.elim
  | .list items, .node => exact h.elim
  | .list items, .leaf => exact h.elim

theorem OverItems.subtrees {items : List (AstItem α)} {u : Ast α} (h : S.OverItems items)
    (hu : u ∈ subtreesItems items) : S.Over u := by
  match items with
  | [] => exact absurd hu (by simp [subtreesItems])
  | item :: items =>
    rw [subtreesItems] at hu
    rcases List.mem_append.mp hu with hu | hu
    · exact OverItem.subtrees h.1 hu
    · exact OverItems.subtrees h.2 hu

theorem OverItem.subtrees {item : AstItem α} {u : Ast α} (h : S.OverItem item)
    (hu : u ∈ subtreesItem item) : S.Over u := by
  match item with
  | .ast t => exact Over.subtrees h hu
  | .str s => exact absurd hu (by simp [subtreesItem])
  | .other a => exact absurd hu (by simp [subtreesItem])

end

end Signature

/-! ### Exception handlers -/

/-- **What is assumed of Python's grammar**: an exception handler has an expression
or nothing for its type, and no other class has a field of that name. -/
structure ExceptHandlerGrammar (S : Signature) : Prop where
  handler : S.fields "ExceptHandler" = some [("type", .node), ("name", .leaf), ("body", .list)]
  others : ∀ cls fs, S.fields cls = some fs → cls ≠ "ExceptHandler" → "type" ∉ fs.map Prod.fst

variable {S : Signature}

/-- Only a string is translated to a string. -/
theorem itemToValue_ne_str {item : AstItem α} (h : ∀ s, item ≠ .str s) (s : String) :
    itemToValue item ≠ .str s := by
  intro heq
  cases item with
  | ast t =>
    obtain ⟨cls, fields⟩ := t
    rw [itemToValue, astToDict] at heq
    cases heq
  | str s' => exact h s' rfl
  | other a => cases heq

/-- A node keeps its class exactly when it is not an exception handler. -/
theorem ExceptHandlerGrammar.keepsClass_iff (hS : ExceptHandlerGrammar S) {t : Ast α}
    (ht : S.Over t) : KeepsClass t ↔ t.cls ≠ "ExceptHandler" := by
  obtain ⟨cls, fields⟩ := t
  obtain ⟨fs, hfs, hfields⟩ := ht
  have hnames := hfields.sameNames
  have hnodup : (fields.map Prod.fst).Nodup := hnames.map_fst ▸ S.nodup cls fs hfs
  rw [Arboql.keepsClass_iff hnodup]
  change _ ↔ cls ≠ "ExceptHandler"
  constructor
  · rintro hall rfl
    -- the field is there, and what it holds is not a string
    obtain rfl : _ = fs := Option.some.inj (hS.handler.symm.trans hfs)
    rcases hnames.typeField with ⟨-, hnone⟩ | ⟨value, kind, hvalue, hkind, hover⟩
    · cases hnone
    · cases hkind
      obtain ⟨item, rfl, hitem⟩ := hover.node
      exact itemToValue_ne_str hitem _ (hall _ hvalue)
  · intro hcls value hvalue
    have hname : "type" ∈ fields.map Prod.fst :=
      List.mem_map.mpr ⟨_, mem_of_typeField hvalue, rfl⟩
    rw [hnames.map_fst] at hname
    exact absurd hname (hS.others cls fs hfs hcls)

/-- **When `ast_to_dict` keeps the classes.** Over Python's grammar, every class in an
AST is kept exactly when there is no exception handler in it. -/
theorem keepsClasses_iff (hS : ExceptHandlerGrammar S) {t : Ast α} (ht : S.Over t) :
    KeepsClasses t ↔ ∀ u ∈ subtrees t, u.cls ≠ "ExceptHandler" :=
  forall₂_congr fun _ hu => hS.keepsClass_iff (ht.subtrees hu)

/-! ### Python's grammar -/

/-- A table of classes with their fields. -/
abbrev ClassTable := List (String × List (String × FieldKind))

/-- The classes without fields. -/
def bareClasses : ClassTable :=
  ["Pass", "Break", "Continue", "Load", "Store", "Del", "And", "Or", "Add", "Sub", "Mult",
    "MatMult", "Div", "Mod", "Pow", "LShift", "RShift", "BitOr", "BitXor", "BitAnd", "FloorDiv",
    "Invert", "Not", "UAdd", "USub", "Eq", "NotEq", "Lt", "LtE", "Gt", "GtE", "Is", "IsNot", "In",
    "NotIn"].map fun cls => (cls, [])

/-- Modules and statements. -/
def stmtClasses : ClassTable := [
  ("Module", [("body", .list), ("type_ignores", .list)]),
  ("Interactive", [("body", .list)]),
  ("Expression", [("body", .node)]),
  ("FunctionType", [("argtypes", .list), ("returns", .node)]),
  ("FunctionDef", [("name", .leaf), ("args", .node), ("body", .list),
    ("decorator_list", .list), ("returns", .node), ("type_comment", .leaf),
    ("type_params", .list)]),
  ("AsyncFunctionDef", [("name", .leaf), ("args", .node), ("body", .list),
    ("decorator_list", .list), ("returns", .node), ("type_comment", .leaf),
    ("type_params", .list)]),
  ("ClassDef", [("name", .leaf), ("bases", .list), ("keywords", .list), ("body", .list),
    ("decorator_list", .list), ("type_params", .list)]),
  ("Return", [("value", .node)]),
  ("Delete", [("targets", .list)]),
  ("Assign", [("targets", .list), ("value", .node), ("type_comment", .leaf)]),
  ("TypeAlias", [("name", .node), ("type_params", .list), ("value", .node)]),
  ("AugAssign", [("target", .node), ("op", .node), ("value", .node)]),
  ("AnnAssign", [("target", .node), ("annotation", .node), ("value", .node),
    ("simple", .leaf)]),
  ("For", [("target", .node), ("iter", .node), ("body", .list), ("orelse", .list),
    ("type_comment", .leaf)]),
  ("AsyncFor", [("target", .node), ("iter", .node), ("body", .list), ("orelse", .list),
    ("type_comment", .leaf)]),
  ("While", [("test", .node), ("body", .list), ("orelse", .list)]),
  ("If", [("test", .node), ("body", .list), ("orelse", .list)]),
  ("With", [("items", .list), ("body", .list), ("type_comment", .leaf)]),
  ("AsyncWith", [("items", .list), ("body", .list), ("type_comment", .leaf)]),
  ("Match", [("subject", .node), ("cases", .list)]),
  ("Raise", [("exc", .node), ("cause", .node)]),
  ("Try", [("body", .list), ("handlers", .list), ("orelse", .list), ("finalbody", .list)]),
  ("TryStar", [("body", .list), ("handlers", .list), ("orelse", .list),
    ("finalbody", .list)]),
  ("Assert", [("test", .node), ("msg", .node)]),
  ("Import", [("names", .list)]),
  ("ImportFrom", [("module", .leaf), ("names", .list), ("level", .leaf)]),
  ("Global", [("names", .list)]),
  ("Nonlocal", [("names", .list)]),
  ("Expr", [("value", .node)])]

/-- Expressions. -/
def exprClasses : ClassTable := [
  ("BoolOp", [("op", .node), ("values", .list)]),
  ("NamedExpr", [("target", .node), ("value", .node)]),
  ("BinOp", [("left", .node), ("op", .node), ("right", .node)]),
  ("UnaryOp", [("op", .node), ("operand", .node)]),
  ("Lambda", [("args", .node), ("body", .node)]),
  ("IfExp", [("test", .node), ("body", .node), ("orelse", .node)]),
  ("Dict", [("keys", .list), ("values", .list)]),
  ("Set", [("elts", .list)]),
  ("ListComp", [("elt", .node), ("generators", .list)]),
  ("SetComp", [("elt", .node), ("generators", .list)]),
  ("DictComp", [("key", .node), ("value", .node), ("generators", .list)]),
  ("GeneratorExp", [("elt", .node), ("generators", .list)]),
  ("Await", [("value", .node)]),
  ("Yield", [("value", .node)]),
  ("YieldFrom", [("value", .node)]),
  ("Compare", [("left", .node), ("ops", .list), ("comparators", .list)]),
  ("Call", [("func", .node), ("args", .list), ("keywords", .list)]),
  ("FormattedValue", [("value", .node), ("conversion", .leaf), ("format_spec", .node)]),
  ("JoinedStr", [("values", .list)]),
  ("Constant", [("value", .leaf), ("kind", .leaf)]),
  ("Attribute", [("value", .node), ("attr", .leaf), ("ctx", .node)]),
  ("Subscript", [("value", .node), ("slice", .node), ("ctx", .node)]),
  ("Starred", [("value", .node), ("ctx", .node)]),
  ("Name", [("id", .leaf), ("ctx", .node)]),
  ("List", [("elts", .list), ("ctx", .node)]),
  ("Tuple", [("elts", .list), ("ctx", .node)]),
  ("Slice", [("lower", .node), ("upper", .node), ("step", .node)])]

/-- Parts of statements and expressions, patterns and types. -/
def partClasses : ClassTable := [
  ("comprehension", [("target", .node), ("iter", .node), ("ifs", .list),
    ("is_async", .leaf)]),
  ("ExceptHandler", [("type", .node), ("name", .leaf), ("body", .list)]),
  ("arguments", [("posonlyargs", .list), ("args", .list), ("vararg", .node),
    ("kwonlyargs", .list), ("kw_defaults", .list), ("kwarg", .node), ("defaults", .list)]),
  ("arg", [("arg", .leaf), ("annotation", .node), ("type_comment", .leaf)]),
  ("keyword", [("arg", .leaf), ("value", .node)]),
  ("alias", [("name", .leaf), ("asname", .leaf)]),
  ("withitem", [("context_expr", .node), ("optional_vars", .node)]),
  ("match_case", [("pattern", .node), ("guard", .node), ("body", .list)]),
  ("MatchValue", [("value", .node)]),
  ("MatchSingleton", [("value", .leaf)]),
  ("MatchSequence", [("patterns", .list)]),
  ("MatchMapping", [("keys", .list), ("patterns", .list), ("rest", .leaf)]),
  ("MatchClass", [("cls", .node), ("patterns", .list), ("kwd_attrs", .list),
    ("kwd_patterns", .list)]),
  ("MatchStar", [("name", .leaf)]),
  ("MatchAs", [("pattern", .node), ("name", .leaf)]),
  ("MatchOr", [("patterns", .list)]),
  ("TypeIgnore", [("lineno", .leaf), ("tag", .leaf)]),
  ("TypeVar", [("name", .leaf), ("bound", .node), ("default_value", .node)]),
  ("ParamSpec", [("name", .leaf), ("default_value", .node)]),
  ("TypeVarTuple", [("name", .leaf), ("default_value", .node)])]

/-- The classes of Python's grammar. -/
def pythonClasses : ClassTable := bareClasses ++ stmtClasses ++ exprClasses ++ partClasses

/-- The fields of a class of the table. -/
def pythonFields (cls : String) : Option (List (String × FieldKind)) :=
  (pythonClasses.find? fun c => c.1 = cls).map Prod.snd

theorem mem_of_pythonFields {cls : String} {fs : List (String × FieldKind)}
    (h : pythonFields cls = some fs) : (cls, fs) ∈ pythonClasses := by
  obtain ⟨c, hc, rfl⟩ := Option.map_eq_some_iff.mp h
  have hcls : c.1 = cls := by simpa using List.find?_some hc
  rw [← hcls]
  exact List.mem_of_find?_eq_some hc

/-- **Python's grammar** as a signature. -/
def pythonGrammar : Signature where
  fields := pythonFields
  nodup cls fs h := by
    have hall : ∀ c ∈ pythonClasses, (c.2.map Prod.fst).Nodup := by decide +kernel
    exact hall _ (mem_of_pythonFields h)

/-- The assumptions hold of the grammar. -/
theorem exceptHandlerGrammar_python : ExceptHandlerGrammar pythonGrammar where
  handler := by decide +kernel
  others cls fs h hcls := by
    have hall : ∀ c ∈ pythonClasses, c.1 ≠ "ExceptHandler" → "type" ∉ c.2.map Prod.fst := by
      decide +kernel
    exact hall _ (mem_of_pythonFields h) hcls

/-! ### A bare `except` -/

/-- `except: pass`. The type and the name are absent. -/
def bareExcept : Ast PyConst :=
  .node "ExceptHandler"
    [("type", .one (.other .none)), ("name", .one (.other .none)), ("body", .list [passStmt])]

/-- `try: pass` with the given handlers. -/
def tryStmt (handlers : List (AstItem PyConst)) : AstItem PyConst :=
  .ast (.node "Try"
    [("body", .list [passStmt]), ("handlers", .list handlers), ("orelse", .list []),
      ("finalbody", .list [])])

theorem over_passStmt : pythonGrammar.OverItem passStmt :=
  ⟨[], by decide +kernel, trivial⟩

theorem over_moduleOf {body : List (AstItem PyConst)} (h : pythonGrammar.OverItems body) :
    pythonGrammar.Over (moduleOf body) :=
  ⟨[("body", .list), ("type_ignores", .list)], by decide +kernel, rfl, h, rfl, trivial, trivial⟩

/-- A module with one `pass` keeps its classes. -/
theorem keepsClasses_iff_pass :
    pythonGrammar.Over (moduleOf [passStmt]) ∧ KeepsClasses (moduleOf [passStmt]) := by
  have hbody : pythonGrammar.OverItems [passStmt] := ⟨over_passStmt, trivial⟩
  have hover := over_moduleOf hbody
  refine ⟨hover, (keepsClasses_iff exceptHandlerGrammar_python hover).mpr ?_⟩
  decide

/-- The tag of a bare `except` is overwritten: `"type"` holds `None` in its dictionary. -/
theorem bareExcept_not_kept :
    pythonGrammar.Over (moduleOf [tryStmt [.ast bareExcept]])
      ∧ (astToDict bareExcept).lookup "type" = some (.other .none)
      ∧ ¬ KeepsClasses (moduleOf [tryStmt [.ast bareExcept]]) := by
  have hbody : pythonGrammar.OverItems [passStmt] := ⟨over_passStmt, trivial⟩
  have hhandler : pythonGrammar.Over bareExcept :=
    ⟨_, exceptHandlerGrammar_python.handler, rfl, ⟨trivial, nofun⟩, rfl, ⟨trivial, nofun⟩, rfl,
      hbody, trivial⟩
  have htry : pythonGrammar.OverItem (tryStmt [.ast bareExcept]) :=
    ⟨[("body", .list), ("handlers", .list), ("orelse", .list), ("finalbody", .list)],
      by decide +kernel, rfl, hbody, rfl, ⟨hhandler, trivial⟩, rfl, trivial, rfl, trivial,
      trivial⟩
  have htype : (astToDict bareExcept).lookup "type" = some (.other .none) := by rfl
  refine ⟨over_moduleOf ⟨htry, trivial⟩, htype, fun hkeeps => ?_⟩
  -- the handler is nested in a list of the `try`
  have hmem : bareExcept ∈ subtrees (moduleOf [tryStmt [.ast bareExcept]]) := by
    simp [subtrees, subtreesFields, subtreesField, subtreesItems, subtreesItem, moduleOf, tryStmt,
      mem_subtrees_self]
  have hkept := htype.symm.trans (hkeeps bareExcept hmem).type
  cases hkept

end Arboql
