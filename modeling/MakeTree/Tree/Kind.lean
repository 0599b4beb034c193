import MakeTree.Token.Kind

/-!
The kinds of tree, and their numbers: leaves first, in the order of the token kinds, then nodes.
-/

namespace MakeTree

inductive LeafKind where
  | token (kind : TokenKind)
  /-- one of the quotes around a literal -/
  | quote
  /-- a backslash and a line break -/
  | continuation
  /-- an illegal character -/
  | skipped
deriving DecidableEq, Repr

inductive NodeKind where
  | root
  | blankLine
  | commentLine
  | assignment
  | rule
  | targets
  | prerequisites
  | orderOnly
  | recipe
  | conditional
  | recipeConditional
  | condition
  | branch
  | recipeBranch
  | elseBranch
  | definition
  | includeLine
  | exportLine
  | functionLine
  | expression
  | expansion
deriving DecidableEq, Repr

inductive Kind where
  | leaf (kind : LeafKind)
  | node (kind : NodeKind)
deriving DecidableEq, Repr

namespace LeafKind

def name : LeafKind → String
  | token .lineBreak => "NEWLINE"
  | token .recipePrefix => "INDENT"
  | token .comment => "COMMENT"
  | token .stringLiteral => "STRING"
  | token .plainText => "TEXT"
  | token .expansionPrefix => "EXPANSION_OPEN"
  | token .expansionSuffix => "EXPANSION_CLOSE"
  | token .varRef => "VAR_REF"
  | token .assignOp => "OPERATOR"
  | token .colon => "COLON"
  | token .comma => "COMMA"
  | token .whitespace => "WHITESPACE"
  | token (.keyword (.specifier .override)) => "OVERRIDE_KW"
  | token (.keyword (.specifier .exported)) => "EXPORT_KW"
  | token (.keyword (.specifier .unexported)) => "UNEXPORT_KW"
  | token (.keyword (.specifier .undefine)) => "UNDEFINE_KW"
  | token (.keyword (.conditional .ifdef)) => "IFDEF_KW"
  | token (.keyword (.conditional .ifndef)) => "IFNDEF_KW"
  | token (.keyword (.conditional .ifeq)) => "IFEQ_KW"
  | token (.keyword (.conditional .ifneq)) => "IFNEQ_KW"
  | token (.keyword .otherwise) => "ELSE_KW"
  | token (.keyword .endif) => "ENDIF_KW"
  | token (.keyword .define) => "DEFINE_KW"
  | token (.keyword .endef) => "ENDEF_KW"
  | token (.keyword .includeFile) => "INCLUDE_KW"
  | quote => "QUOTE"
  | continuation => "CONTINUATION"
  | skipped => "ERROR"

def all : List LeafKind := TokenKind.all.map token ++ [quote, continuation, skipped]

end LeafKind

namespace NodeKind

def name : NodeKind → String
  | root => "ROOT"
  | blankLine => "BLANK_LINE"
  | commentLine => "COMMENT_LINE"
  | assignment => "ASSIGNMENT"
  | rule => "RULE"
  | targets => "TARGETS"
  | prerequisites => "PREREQUISITES"
  | orderOnly => "ORDER_ONLY"
  | recipe => "RECIPE"
  | conditional => "CONDITIONAL"
  | recipeConditional => "RECIPE_CONDITIONAL"
  | condition => "CONDITION"
  | branch => "BRANCH"
  | recipeBranch => "RECIPE_BRANCH"
  | elseBranch => "ELSE_BRANCH"
  | definition => "DEFINE"
  | includeLine => "INCLUDE"
  | exportLine => "EXPORT"
  | functionLine => "FUNCTION"
  | expression => "EXPR"
  | expansion => "EXPANSION"

def all : List NodeKind :=
  [root, blankLine, commentLine, assignment, rule, targets, prerequisites, orderOnly, recipe,
   conditional, recipeConditional, condition, branch, recipeBranch, elseBranch, definition,
   includeLine, exportLine, functionLine, expression, expansion]

end NodeKind

namespace Kind

def name : Kind → String
  | leaf k => k.name
  | node k => k.name

def all : List Kind := LeafKind.all.map leaf ++ NodeKind.all.map node

/-- The number of a kind is its place among all kinds. -/
def number (k : Kind) : Nat := all.idxOf k

def ofNumber? (n : Nat) : Option Kind := all[n]?

theorem ofNumber?_number (k : Kind) : ofNumber? k.number = some k := by
  have h : k ∈ all := by
    rcases k with ((_ | _ | _ | _ | _ | _ | _ | _ | _ | _ | _ | _ | (s | c | _)) | _ | _ | _) | k
    all_goals first | (cases s <;> decide) | (cases c <;> decide) | (cases k <;> decide) | decide
  rw [ofNumber?, number, List.getElem?_eq_getElem (List.idxOf_lt_length_iff.2 h),
    List.getElem_idxOf]

end Kind

end MakeTree
