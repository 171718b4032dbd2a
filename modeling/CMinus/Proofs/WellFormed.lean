import CMinus.Frame

namespace CMinus

namespace Scopes

/-- Some visible table declares the name. -/
def Declares (scopes : Scopes) (name : String) : Prop :=
  ∃ t ∈ scopes, (t.get? name).isSome

theorem exists_lookup_iff {scopes : Scopes} {name : String} :
    (∃ v, scopes.lookup name = some v) ↔ scopes.Declares name := by
  simp only [lookup, Declares, ← Option.isSome_iff_exists, List.findSome?_isSome_iff]

theorem mem_of_lookup {scopes : Scopes} {name : String} {v : Variable}
    (h : scopes.lookup name = some v) : ∃ t ∈ scopes, t.get? name = some v :=
  List.exists_of_findSome?_eq_some h

end Scopes

/-- A node that can stand where a value is needed. Only the functions `callable` may be called. -/
inductive IsExpression (callable : List String) (scopes : Scopes) : Node → Prop
  | number (value : Word) : IsExpression callable scopes (.number value)
  | var {name : String} : scopes.Declares name → IsExpression callable scopes (.var name)
  | element {name : String} {index : Node} : scopes.Declares name →
      IsExpression callable scopes index → IsExpression callable scopes (.element name index)
  | assign {target value : Node} : target.isPlace = true →
      IsExpression callable scopes target → IsExpression callable scopes value →
      IsExpression callable scopes (.assign target value)
  | binary {op : BinaryOp} {left right : Node} : IsExpression callable scopes left →
      IsExpression callable scopes right → IsExpression callable scopes (.binary op left right)
  | call {name : String} {args : List Node} : name ∈ callable →
      (∀ arg ∈ args, IsExpression callable scopes arg) →
      IsExpression callable scopes (.call name args)

/-- The scopes inside a compound statement. -/
def Scopes.enter (scopes : Scopes) : Option Table → Scopes
  | some t => t :: scopes
  | none => scopes

/-- A node that can stand in a function body. -/
inductive IsStatement (callable : List String) : Scopes → Node → Prop
  | expression {scopes : Scopes} {node : Node} : IsExpression callable scopes node →
      IsStatement callable scopes node
  | compound {scopes : Scopes} {table : Option Table} {statements : List Node} :
      (∀ node ∈ statements, IsStatement callable (scopes.enter table) node) →
      IsStatement callable scopes (.compound table statements)
  | branch {scopes : Scopes} {test thenPart : Node} {elsePart : Option Node} :
      IsExpression callable scopes test → IsStatement callable scopes thenPart →
      (∀ node ∈ elsePart, IsStatement callable scopes node) →
      IsStatement callable scopes (.branch test thenPart elsePart)
  | loop {scopes : Scopes} {test body : Node} : IsExpression callable scopes test →
      IsStatement callable scopes body → IsStatement callable scopes (.loop test body)
  /-- What a function without a result returns is not looked at. -/
  | retVoid {scopes : Scopes} (value : Option Node) : IsStatement callable scopes (.ret .void value)
  | ret {scopes : Scopes} {returns : ReturnType} {value : Option Node} : returns ≠ .void →
      (∀ node ∈ value, IsExpression callable scopes node) →
      IsStatement callable scopes (.ret returns value)

/-- The name that a declaration gives to a function. -/
def Node.functionName : Node → Option String
  | .function name .. => some name
  | _ => none

/-- Declarations that can follow functions with the names `earlier`. -/
structure Program.Admits (p : Program) (earlier : List String) (nodes : List Node) : Prop where
  functions : ∀ node ∈ nodes, ∃ name returns body, node = .function name returns body ∧
    (p.signature? name).isSome ∧ name ∉ earlier
  distinct : (nodes.filterMap Node.functionName).Nodup
  bodies : ∀ before name returns body after signature,
    nodes = before ++ .function name returns body :: after → p.signature? name = some signature →
    IsStatement (earlier ++ before.filterMap Node.functionName ++ [name])
      [signature.params, p.globals] body

structure Program.WellFormed (p : Program) : Prop where
  declarations : p.Admits ["input", "output"] p.declarations
  main : ∃ returns body, .function "main" returns body ∈ p.declarations

/-- A table whose size and offsets leave room for every displacement. -/
def Table.Small (t : Table) : Prop :=
  t.size.toNat < 2147483646 ∧
    ∀ name v, t.get? name = some v → v.offset.toNat < 2147483646

theorem NameMap.mem_of_find {α : Type} {name : String} {value : α} {entries : List (String × α)}
    (h : find name entries = some value) : (name, value) ∈ entries := by
  induction entries with
  | nil => cases h
  | cons head rest ih =>
    rw [find] at h
    split at h
    · next heq =>
      cases h
      subst heq
      exact List.mem_cons_self
    · exact List.mem_cons_of_mem _ (ih h)

theorem Table.small_of_entries {t : Table} (hsize : t.size.toNat < 2147483646)
    (hvars : ∀ e ∈ t.vars.entries, e.2.offset.toNat < 2147483646) : t.Small :=
  ⟨hsize, fun _ _ h => hvars _ (NameMap.mem_of_find h)⟩

namespace Node

mutual

def tables : Node → List Table
  | function _ _ body => body.tables
  | compound table statements => table.toList ++ tablesAll statements
  | branch test thenPart elsePart => test.tables ++ thenPart.tables ++ tablesOptional elsePart
  | loop test body => test.tables ++ body.tables
  | ret _ value => tablesOptional value
  | number _ => []
  | var _ => []
  | element _ index => index.tables
  | assign target value => target.tables ++ value.tables
  | binary _ left right => left.tables ++ right.tables
  | call _ args => tablesAll args

def tablesAll : List Node → List Table
  | [] => []
  | node :: rest => node.tables ++ tablesAll rest

def tablesOptional : Option Node → List Table
  | none => []
  | some node => node.tables

end

mutual

/-- The tables of the blocks that statements are made of, in source order. Where an expression
stands there is no block. -/
def opened : Node → List Table
  | compound table statements => table.toList ++ openedAll statements
  | branch _ thenPart elsePart => thenPart.opened ++ openedOptional elsePart
  | loop _ body => body.opened
  | _ => []

def openedAll : List Node → List Table
  | [] => []
  | node :: rest => node.opened ++ openedAll rest

def openedOptional : Option Node → List Table
  | none => []
  | some node => node.opened

end

mutual

theorem mem_tables_of_mem_opened {t : Table} : (node : Node) → t ∈ node.opened → t ∈ node.tables
  | compound table statements, h => by
    rw [opened, List.mem_append] at h
    rw [tables, List.mem_append]
    exact h.imp_right (mem_tablesAll_of_mem_openedAll statements)
  | branch test thenPart elsePart, h => by
    rw [opened, List.mem_append] at h
    rw [tables, List.append_assoc, List.mem_append, List.mem_append]
    exact .inr (h.imp (mem_tables_of_mem_opened thenPart)
      (mem_tablesOptional_of_mem_openedOptional elsePart))
  | loop test body, h => List.mem_append_right _ (mem_tables_of_mem_opened body h)
  | function .., h | ret .., h | number .., h | var .., h | element .., h | assign .., h
  | binary .., h | call .., h => by cases h

theorem mem_tablesAll_of_mem_openedAll {t : Table} :
    (nodes : List Node) → t ∈ openedAll nodes → t ∈ tablesAll nodes
  | [], h => h
  | node :: rest, h => by
    rw [openedAll, List.mem_append] at h
    rw [tablesAll, List.mem_append]
    exact h.imp (mem_tables_of_mem_opened node) (mem_tablesAll_of_mem_openedAll rest)

theorem mem_tablesOptional_of_mem_openedOptional {t : Table} :
    (node : Option Node) → t ∈ openedOptional node → t ∈ tablesOptional node
  | none, h => h
  | some node, h => mem_tables_of_mem_opened node h

end

/-- No cells at all, or those of one of the tables. -/
def IsExtent (ts : List Table) (n : Size) : Prop :=
  n = 0 ∨ ∃ t ∈ ts, n = t.size

theorem IsExtent.mono {ts us : List Table} {n : Size} (h : IsExtent ts n)
    (hsub : ∀ t ∈ ts, t ∈ us) : IsExtent us n := by
  rcases h with h | ⟨t, ht, h⟩
  · exact .inl h
  · exact .inr ⟨t, hsub t ht, h⟩

theorem IsExtent.max {ts us : List Table} {m n : Size} (hm : IsExtent ts m) (hn : IsExtent us n) :
    IsExtent (ts ++ us) (max m n) := by
  change IsExtent _ (if m ≤ n then n else m)
  split
  · exact hn.mono fun t ht => List.mem_append_right ts ht
  · exact hm.mono fun t ht => List.mem_append_left us ht

mutual

/-- The frame of a body without blocks is empty; otherwise it is as large as one of them. -/
theorem frameSize_isExtent_opened : (node : Node) → IsExtent node.opened node.frameSize
  | compound none statements => by
    have h := (largestFrame_isExtent statements).max (.inl rfl : IsExtent [] 0)
    rwa [List.append_nil] at h
  | compound (some t) statements => by
    have h := (largestFrame_isExtent statements).max
      (.inr ⟨t, List.mem_singleton_self t, rfl⟩ : IsExtent [t] t.size)
    refine h.mono fun u hu => ?_
    rw [opened, List.mem_append, Option.toList_some]
    exact (List.mem_append.1 hu).symm
  | branch test thenPart elsePart =>
    (frameSize_isExtent_opened thenPart).max (optionalFrame_isExtent elsePart)
  | loop test body => frameSize_isExtent_opened body
  | function .. | ret .. | number .. | var .. | element .. | assign .. | binary .. | call .. =>
    .inl rfl

theorem largestFrame_isExtent : (nodes : List Node) → IsExtent (openedAll nodes) (largestFrame nodes)
  | [] => .inl rfl
  | node :: rest => (frameSize_isExtent_opened node).max (largestFrame_isExtent rest)

theorem optionalFrame_isExtent : (node : Option Node) →
    IsExtent (openedOptional node) (optionalFrame node)
  | none => .inl rfl
  | some node => frameSize_isExtent_opened node

end

theorem frameSize_isExtent (node : Node) : IsExtent node.tables node.frameSize :=
  node.frameSize_isExtent_opened.mono fun _ => mem_tables_of_mem_opened node

end Node

structure Program.Small (p : Program) : Prop where
  globals : p.globals.Small
  params : ∀ name signature, p.signature? name = some signature → signature.params.Small
  blocks : ∀ t ∈ Node.tablesAll p.declarations, t.Small

end CMinus
