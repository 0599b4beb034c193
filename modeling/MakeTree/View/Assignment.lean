import MakeTree.View.Expression

/-!
Assignments, multi-line definitions and export directives.
-/

namespace MakeTree

inductive AssignOp where
  | deferred
  | conditional
  | immediate
  | immediatePosix
  | append
  | shell
deriving DecidableEq, Repr

namespace AssignOp

def spelling : AssignOp → String
  | deferred => "="
  | conditional => "?="
  | immediate => ":="
  | immediatePosix => "::="
  | append => "+="
  | shell => "!="

def name : AssignOp → String
  | deferred => "Deferred"
  | conditional => "Conditional"
  | immediate => "Immediate"
  | immediatePosix => "ImmediatePosix"
  | append => "Append"
  | shell => "Shell"

def all : List AssignOp := [deferred, conditional, immediate, immediatePosix, append, shell]

def ofText? (t : Text) : Option AssignOp := all.find? (·.spelling == String.ofList t)

theorem ofText?_spelling (op : AssignOp) : ofText? op.spelling.toList = some op := by
  cases op <;> decide

end AssignOp

abbrev Assignment := Node .assignment

/-- A `define` with the lines up to its `endef`. -/
abbrev Definition := Node .definition

abbrev ExportLine := Node .exportLine

namespace Node

variable {k : NodeKind}

/-- The assignment operator among the children. -/
def operator? (n : Node k) : Option AssignOp := (n.token? .assignOp).bind AssignOp.ofText?

/-- The expression that names what is assigned, defined or evaluated. -/
def subject? (n : Node k) : Option Expression := n.node? .expression

def value? (a : Assignment) : Option Expression := do
  let _ ← a.token? .assignOp
  (a.nodes .expression)[1]?

def isOverride (a : Assignment) : Bool := a.specifiers.contains .override

def isExported (a : Assignment) : Bool := a.specifiers.contains .exported

def isUndefine (a : Assignment) : Bool := a.specifiers.contains .undefine

/-- The comment at the end of the line, with its `#`. -/
def comment? (n : Node k) : Option Text := n.token? .comment

/-- The lines of a definition, without the last line break. -/
def body? (d : Definition) : Option Expression := (d.nodes .expression)[1]?

def isUnexport (e : ExportLine) : Bool := e.specifiers.contains .unexported

def words (n : Node k) : List Expression := n.nodes .expression

/-- Whether no variables are named, which means all of them. -/
def isBare (e : ExportLine) : Bool := e.words.isEmpty

end Node

end MakeTree
