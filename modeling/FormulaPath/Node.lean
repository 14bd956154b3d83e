import FormulaPath.Access
import FormulaPath.Bracket
import FormulaPath.Category
import FormulaPath.Datatype
import FormulaPath.Problem

/-!
A path resolves to a chain of nodes, one for each part up to the first that does not resolve. A node
that resolves says what its part refers to and the type of the path up to there. The constructors
below carry the rule for lists: once a path is list valued it stays so, until an index picks one
element or a qualifier settles the question anew.

A chain is handed out with each node holding the next one. Inside the library it is the list of its
nodes; `Chain.ofNodes?_eq_some_iff` says that this is the same thing.
-/
namespace FormulaPath

/-- What a part of a path refers to. -/
inductive Referent where
  /-- A parameter of the formula. -/
  | param (p : Parameter)
  /-- An attribute, or its default value. -/
  | attr (a : Attribute) (access : Access)
  | assoc (a : Association)
  /-- The targets of an association that one component configures. -/
  | qualifier (name runtimeId : String) (component : Component)
  /-- One element of a list. -/
  | index (position : Nat)
  /-- An enumeration, as the start of one of its values. -/
  | enumClass (e : EnumType)
  | enumValue (e : EnumType) (v : EnumValue)
deriving DecidableEq, Repr

def Referent.category : Referent → Category
  | param _ => .param
  | attr _ _ => .attr
  | assoc _ => .assoc
  | qualifier _ _ _ => .qualifier
  | index _ => .index
  | enumClass _ => .enumClass
  | enumValue _ _ => .enumValue

/-- The outcome for one part of a path. -/
inductive Meaning where
  /-- The part refers to something, and the path up to it has a type. -/
  | resolved (referent : Referent) (datatype : Datatype)
  /-- The path is the empty text. -/
  | empty
  /-- The part does not resolve. -/
  | invalid (problem : Problem)
deriving DecidableEq, Repr

namespace Meaning

def datatype? : Meaning → Option Datatype
  | resolved _ t => some t
  | _ => none

def referent? : Meaning → Option Referent
  | resolved r _ => some r
  | _ => none

def problem? : Meaning → Option Problem
  | invalid p => some p
  | _ => none

def ofParameter (p : Parameter) (t : Datatype) : Meaning := .resolved (.param p) t

/-- The meaning of an attribute of type `t`, behind a path that is list valued or not. -/
def ofAttribute (a : Attribute) (access : Access) (t : Datatype) (list : Bool) : Meaning :=
  .resolved (.attr a access) (t.asListIf list)

/-- The meaning of an association to the type `t`, behind a path that is list valued or not. -/
def ofAssociation (a : Association) (t : Datatype) (list : Bool) : Meaning :=
  .resolved (.assoc a) (t.asListIf (a.isManyUnqualified || list))

/-- The meaning of a qualifier that selects one or many of type `t`. -/
def ofQualifier (name runtimeId : String) (component : Component) (t : Datatype) (many : Bool) :
    Meaning :=
  .resolved (.qualifier name runtimeId component) (t.element.asListIf many)

def ofIndex (position : Nat) (t : Datatype) : Meaning := .resolved (.index position) t.element

def ofEnumClass (e : EnumType) : Meaning := .resolved (.enumClass e) (.enumClass e.name)

def ofEnumValue (e : EnumType) (v : EnumValue) : Meaning :=
  .resolved (.enumValue e v) (.enum e.name)

end Meaning

/-- The outcome for the part of a path in a region. -/
structure Node where
  region : Region
  meaning : Meaning
deriving DecidableEq, Repr

namespace Node

def datatype? (n : Node) : Option Datatype := n.meaning.datatype?

def referent? (n : Node) : Option Referent := n.meaning.referent?

def problem? (n : Node) : Option Problem := n.meaning.problem?

def isInvalid (n : Node) : Bool := n.problem?.isSome

def isList (n : Node) : Bool := n.datatype?.any Datatype.isList

def category? (n : Node) : Option Category := n.referent?.map Referent.category

end Node

/-- A chain of nodes in which each node holds its successor. -/
inductive Chain where
  | last (node : Node)
  | link (node : Node) (successor : Chain)
deriving DecidableEq, Repr

namespace Chain

def node : Chain → Node
  | last node => node
  | link node _ => node

def successor? : Chain → Option Chain
  | last _ => none
  | link _ successor => some successor

/-- The nodes along the chain, the first one first. -/
def nodes : Chain → List Node
  | last node => [node]
  | link node successor => node :: successor.nodes

def final : Chain → Node
  | last node => node
  | link _ successor => successor.final

/-- Why the chain ends before its path does. -/
def problem? (c : Chain) : Option Problem := c.final.problem?

/-- The chain of some nodes, linked from the last one to the first. -/
def ofNodes? (nodes : List Node) : Option Chain :=
  nodes.foldr (fun node successor => some (successor.elim (.last node) (.link node))) none

theorem ofNodes?_cons (node : Node) (later : List Node) :
    ofNodes? (node :: later) = some ((ofNodes? later).elim (.last node) (.link node)) := rfl

theorem exists_ofNodes? {nodes : List Node} (h : nodes ≠ []) : ∃ c, ofNodes? nodes = some c := by
  cases nodes with
  | nil => exact absurd rfl h
  | cons node later => exact ⟨_, ofNodes?_cons node later⟩

/-- Linking the nodes of a chain gives the chain back. -/
theorem ofNodes?_nodes (c : Chain) : ofNodes? c.nodes = some c := by
  induction c with
  | last node => rfl
  | link node successor ih => rw [nodes, ofNodes?_cons, ih, Option.elim_some]

/-- Chains are lists of nodes that are not empty: such a list is linked to one chain, and the chain
has just these nodes. -/
theorem ofNodes?_eq_some_iff {nodes : List Node} {c : Chain} :
    ofNodes? nodes = some c ↔ c.nodes = nodes := by
  constructor
  · intro h
    induction nodes generalizing c with
    | nil => cases h
    | cons node later ih =>
      rw [ofNodes?_cons, Option.some.injEq] at h
      cases hlater : ofNodes? later with
      | none =>
        rw [hlater] at h
        cases later with
        | nil => rw [← h]; rfl
        | cons => cases hlater
      | some successor =>
        rw [hlater] at h
        rw [← h, Option.elim_some, Chain.nodes, ih hlater]
  · rintro rfl
    exact ofNodes?_nodes c

/-- Going from successor to successor passes the nodes of the chain. -/
theorem nodes_eq_cons (c : Chain) : c.nodes = c.node :: c.successor?.elim [] nodes := by
  cases c <;> rfl

theorem getLast?_nodes (c : Chain) : c.nodes.getLast? = some c.final := by
  induction c with
  | last node => rfl
  | link node successor ih =>
    rw [nodes, List.getLast?_cons, ih]
    rfl

end Chain

end FormulaPath
