/-! # Properties

What is known about a node beside its shape: an insertion-ordered map from kinds to values. A new
value for a kind that is there takes the place of the old one.
-/
namespace ScriptPress

/-- The identity of a node. -/
structure NodeId where
  index : Nat
  deriving Repr, DecidableEq, Inhabited, Ord

inductive PropertyKind where
  | sourceName | endLine | label | target | jumps | cases | defaultClause | enclosingFunction
  | functions | vars | uses | localCount | isNumber | directCall | specialCall | postfixForm
  | comments | trailingComments
  deriving Repr, DecidableEq, Inhabited

namespace PropertyKind

def all : List PropertyKind :=
  [.sourceName, .endLine, .label, .target, .jumps, .cases, .defaultClause, .enclosingFunction,
   .functions, .vars, .uses, .localCount, .isNumber, .directCall, .specialCall, .postfixForm,
   .comments, .trailingComments]

def name : PropertyKind → String
  | sourceName => "SourceName"
  | endLine => "EndLine"
  | label => "Label"
  | target => "Target"
  | jumps => "Jumps"
  | cases => "Cases"
  | defaultClause => "Default"
  | enclosingFunction => "EnclosingFunction"
  | functions => "Functions"
  | vars => "Vars"
  | uses => "Uses"
  | localCount => "LocalCount"
  | isNumber => "IsNumber"
  | directCall => "DirectCall"
  | specialCall => "SpecialCall"
  | postfixForm => "Postfix"
  | comments => "Comments"
  | trailingComments => "TrailingComments"

def ofName? (name : String) : Option PropertyKind := all.find? (·.name == name)

end PropertyKind

inductive PropertyValue where
  | flag (on : Bool)
  | number (n : Int)
  | text (s : String)
  | node (id : NodeId)
  | nodes (ids : List NodeId)
  | texts (ss : List String)
  deriving Repr, DecidableEq, Inhabited

/-- The properties of a node, in the order of the first values of their kinds. -/
structure Properties where
  entries : List (PropertyKind × PropertyValue) := []
  deriving Repr, DecidableEq, Inhabited

namespace Properties

/-- Replaces the value of the entry of a kind, or adds an entry at the end. -/
def putIn (kind : PropertyKind) (value : PropertyValue) :
    List (PropertyKind × PropertyValue) → List (PropertyKind × PropertyValue)
  | [] => [(kind, value)]
  | entry :: rest =>
    if entry.1 = kind then (kind, value) :: rest else entry :: putIn kind value rest

def put (p : Properties) (kind : PropertyKind) (value : PropertyValue) : Properties :=
  ⟨putIn kind value p.entries⟩

def get? (p : Properties) (kind : PropertyKind) : Option PropertyValue :=
  (p.entries.find? (·.1 == kind)).map (·.2)

def contains (p : Properties) (kind : PropertyKind) : Bool := (p.get? kind).isSome

def remove (p : Properties) (kind : PropertyKind) : Properties :=
  ⟨p.entries.eraseP (·.1 == kind)⟩

/-- Sets a kind to a value if there is one. -/
def putIf (p : Properties) (kind : PropertyKind) (value? : Option PropertyValue) : Properties :=
  value?.elim p (p.put kind)

/-- Sets a flag that holds, and leaves out one that does not. -/
def mark (p : Properties) (kind : PropertyKind) (holds : Bool) : Properties :=
  if holds then p.put kind (.flag true) else p

def flag (p : Properties) (kind : PropertyKind) : Bool := p.get? kind == some (.flag true)

def number? (p : Properties) (kind : PropertyKind) : Option Int :=
  match p.get? kind with
  | some (.number n) => some n
  | _ => none

def text? (p : Properties) (kind : PropertyKind) : Option String :=
  match p.get? kind with
  | some (.text s) => some s
  | _ => none

def node? (p : Properties) (kind : PropertyKind) : Option NodeId :=
  match p.get? kind with
  | some (.node id) => some id
  | _ => none

def nodes (p : Properties) (kind : PropertyKind) : List NodeId :=
  match p.get? kind with
  | some (.nodes ids) => ids
  | _ => []

def texts (p : Properties) (kind : PropertyKind) : List String :=
  match p.get? kind with
  | some (.texts ss) => ss
  | _ => []

end Properties
end ScriptPress
