import MakeTree.Text.Basic

/-!
The kinds of token, with the directive keywords among them.
-/

namespace MakeTree

/-- Keywords that may stand in front of an assignment. -/
inductive Specifier where
  | override
  | exported
  | unexported
  | undefine
deriving DecidableEq, Repr

/-- Keywords that open a conditional. -/
inductive ConditionalKind where
  | ifdef
  | ifndef
  | ifeq
  | ifneq
deriving DecidableEq, Repr

inductive Keyword where
  | specifier (s : Specifier)
  | conditional (k : ConditionalKind)
  | otherwise
  | endif
  | define
  | endef
  | includeFile
deriving DecidableEq, Repr

inductive TokenKind where
  | lineBreak
  | recipePrefix
  | comment
  | stringLiteral
  | plainText
  | expansionPrefix
  | expansionSuffix
  | varRef
  | assignOp
  | colon
  | comma
  | whitespace
  | keyword (k : Keyword)
deriving DecidableEq, Repr

namespace Specifier

def spelling : Specifier → String
  | override => "override"
  | exported => "export"
  | unexported => "unexport"
  | undefine => "undefine"

def name : Specifier → String
  | override => "Override"
  | exported => "Export"
  | unexported => "Unexport"
  | undefine => "Undefine"

end Specifier

namespace ConditionalKind

def spelling : ConditionalKind → String
  | ifdef => "ifdef"
  | ifndef => "ifndef"
  | ifeq => "ifeq"
  | ifneq => "ifneq"

def name : ConditionalKind → String
  | ifdef => "Ifdef"
  | ifndef => "Ifndef"
  | ifeq => "Ifeq"
  | ifneq => "Ifneq"

/-- Whether the branch is taken when the test fails. -/
def negated : ConditionalKind → Bool
  | ifndef | ifneq => true
  | ifdef | ifeq => false

end ConditionalKind

namespace Keyword

def ofText (word : Text) : Option Keyword :=
  match String.ofList word with
  | "override" => some (.specifier .override)
  | "export" => some (.specifier .exported)
  | "unexport" => some (.specifier .unexported)
  | "undefine" => some (.specifier .undefine)
  | "ifdef" => some (.conditional .ifdef)
  | "ifndef" => some (.conditional .ifndef)
  | "ifeq" => some (.conditional .ifeq)
  | "ifneq" => some (.conditional .ifneq)
  | "else" => some .otherwise
  | "endif" => some .endif
  | "define" => some .define
  | "endef" => some .endef
  | "include" | "-include" | "sinclude" => some .includeFile
  | _ => none

def spelling : Keyword → String
  | specifier s => s.spelling
  | conditional k => k.spelling
  | otherwise => "else"
  | endif => "endif"
  | define => "define"
  | endef => "endef"
  | includeFile => "include"

def name : Keyword → String
  | specifier s => s.name
  | conditional k => k.name
  | otherwise => "Else"
  | endif => "Endif"
  | define => "Define"
  | endef => "Endef"
  | includeFile => "Include"

def all : List Keyword :=
  [.specifier .override, .specifier .exported, .specifier .unexported, .conditional .ifdef,
   .conditional .ifndef, .conditional .ifeq, .conditional .ifneq, .otherwise, .endif, .define,
   .endef, .specifier .undefine, .includeFile]

end Keyword

namespace TokenKind

/-- How messages speak of a token of this kind. -/
def display : TokenKind → String
  | lineBreak => "line break"
  | recipePrefix => "recipe prefix"
  | comment => "comment"
  | stringLiteral => "string literal"
  | plainText => "text"
  | expansionPrefix => "'$('"
  | expansionSuffix => "')'"
  | varRef => "variable reference"
  | assignOp => "assignment operator"
  | colon => "':'"
  | comma => "','"
  | whitespace => "whitespace"
  | keyword k => "'" ++ k.spelling ++ "'"

def name : TokenKind → String
  | lineBreak => "LineBreak"
  | recipePrefix => "LeadingTab"
  | comment => "Comment"
  | stringLiteral => "StringLiteral"
  | plainText => "PlainText"
  | expansionPrefix => "ExpansionPrefix"
  | expansionSuffix => "ExpansionSuffix"
  | varRef => "VarRef"
  | assignOp => "AssignOp"
  | colon => "Colon"
  | comma => "Comma"
  | whitespace => "Whitespace"
  | keyword k => "Kw" ++ k.name

def all : List TokenKind :=
  [lineBreak, recipePrefix, comment, stringLiteral, plainText, expansionPrefix, expansionSuffix,
   varRef, assignOp, colon, comma, whitespace] ++ Keyword.all.map keyword

def isKeyword : TokenKind → Bool
  | keyword _ => true
  | _ => false

def isConditional : TokenKind → Bool
  | keyword (.conditional _) => true
  | _ => false

def specifier? : TokenKind → Option Specifier
  | keyword (.specifier s) => some s
  | _ => none

/-- Blanks and the recipe prefix: what may stand in front of a statement. -/
def isLeading : TokenKind → Bool
  | whitespace | recipePrefix => true
  | _ => false

end TokenKind

end MakeTree
