import Lexis.Source.Basic
set_option autoImplicit false

/-!
Tokens and their kinds. A kind is a class with many members (identifiers, integers, illegal
characters), the end of the input, or it has one fixed text: a symbol or a keyword. A token is a
kind with the text that stands for it; tokens are ordered by kind, then by literal.
-/
namespace Lexis

/-- Kinds are ordered as they are listed. -/
inductive Kind where
  | eof
  | illegal
  | identifier
  | integer
  | assign
  | plus
  | minus
  | bang
  | asterisk
  | slash
  | equal
  | notEqual
  | lessThan
  | greaterThan
  | comma
  | semicolon
  | leftParenthesis
  | rightParenthesis
  | leftBrace
  | rightBrace
  | functionWord
  | letWord
  | trueWord
  | falseWord
  | ifWord
  | elseWord
  | returnWord
  deriving DecidableEq, Repr, Ord, Inhabited

namespace Kind

def all : List Kind :=
  [.eof, .illegal, .identifier, .integer,
    .assign, .plus, .minus, .bang, .asterisk, .slash, .equal, .notEqual, .lessThan, .greaterThan,
    .comma, .semicolon, .leftParenthesis, .rightParenthesis, .leftBrace, .rightBrace,
    .functionWord, .letWord, .trueWord, .falseWord, .ifWord, .elseWord, .returnWord]

theorem mem_all (k : Kind) : k ∈ all := by cases k <;> decide

def name : Kind → String
  | .eof => "Eof"
  | .illegal => "Illegal"
  | .identifier => "Identifier"
  | .integer => "Integer"
  | .assign => "Assign"
  | .plus => "Plus"
  | .minus => "Minus"
  | .bang => "Bang"
  | .asterisk => "Asterisk"
  | .slash => "Slash"
  | .equal => "Equal"
  | .notEqual => "NotEqual"
  | .lessThan => "LessThan"
  | .greaterThan => "GreaterThan"
  | .comma => "Comma"
  | .semicolon => "Semicolon"
  | .leftParenthesis => "LeftParenthesis"
  | .rightParenthesis => "RightParenthesis"
  | .leftBrace => "LeftBrace"
  | .rightBrace => "RightBrace"
  | .functionWord => "Function"
  | .letWord => "Let"
  | .trueWord => "True"
  | .falseWord => "False"
  | .ifWord => "If"
  | .elseWord => "Else"
  | .returnWord => "Return"

def ofName? (text : String) : Option Kind := all.find? (·.name == text)

def tag : Kind → String
  | .eof => "EOF"
  | .illegal => "ILLEGAL"
  | .identifier => "IDENTIFIER"
  | .integer => "INTEGER"
  | .assign => "ASSIGN"
  | .plus => "PLUS"
  | .minus => "MINUS"
  | .bang => "BANG"
  | .asterisk => "ASTERISK"
  | .slash => "SLASH"
  | .equal => "EQUAL"
  | .notEqual => "NOT_EQUAL"
  | .lessThan => "LESS_THAN"
  | .greaterThan => "GREATER_THAN"
  | .comma => "COMMA"
  | .semicolon => "SEMICOLON"
  | .leftParenthesis => "LEFT_PARENTHESIS"
  | .rightParenthesis => "RIGHT_PARENTHESIS"
  | .leftBrace => "LEFT_BRACE"
  | .rightBrace => "RIGHT_BRACE"
  | .functionWord => "FUNCTION"
  | .letWord => "LET"
  | .trueWord => "TRUE"
  | .falseWord => "FALSE"
  | .ifWord => "IF"
  | .elseWord => "ELSE"
  | .returnWord => "RETURN"

def paddedTag (k : Kind) (width : Nat) : String :=
  String.ofList (k.tag.toList.leftpad width ' ')

def text? : Kind → Option String
  | .eof | .illegal | .identifier | .integer => none
  | .assign => some "="
  | .plus => some "+"
  | .minus => some "-"
  | .bang => some "!"
  | .asterisk => some "*"
  | .slash => some "/"
  | .equal => some "=="
  | .notEqual => some "!="
  | .lessThan => some "<"
  | .greaterThan => some ">"
  | .comma => some ","
  | .semicolon => some ";"
  | .leftParenthesis => some "("
  | .rightParenthesis => some ")"
  | .leftBrace => some "\x7b"
  | .rightBrace => some "\x7d"
  | .functionWord => some "fn"
  | .letWord => some "let"
  | .trueWord => some "true"
  | .falseWord => some "false"
  | .ifWord => some "if"
  | .elseWord => some "else"
  | .returnWord => some "return"

def isKeyword : Kind → Bool
  | .functionWord | .letWord | .trueWord | .falseWord | .ifWord | .elseWord | .returnWord => true
  | _ => false

def keywords : List Kind := all.filter isKeyword

def ofKeyword? (word : String) : Option Kind := keywords.find? (·.text? == some word)

def sort (kinds : List Kind) : List Kind := kinds.mergeSort fun a b => (compare a b).isLE

/-- A word that is no keyword is an identifier. -/
def ofWord (word : String) : Kind := (ofKeyword? word).getD .identifier

end Kind

inductive KeywordError where
  | notAKeyword
  deriving DecidableEq, Repr

def KeywordError.message : KeywordError → String
  | .notAKeyword => "invalid string representation of keyword."

def Kind.ofKeyword (word : String) : Except KeywordError Kind :=
  match Kind.ofKeyword? word with
  | some k => .ok k
  | none => .error .notAKeyword

structure Token where
  kind : Kind
  literal : String
  deriving DecidableEq, Repr, Ord

namespace Token

def eof : Token := ⟨.eof, ""⟩

def isEof (t : Token) : Bool := t.kind == .eof

def render (t : Token) : String := t.kind.tag ++ " " ++ Quoted.quote t.literal

def inspect (t : Token) : String :=
  Record.record "Token"
    [Record.field "kind" t.kind.name, Record.field "literal" (Quoted.quote t.literal)]

def distinct (tokens : List Token) : List Token := tokens.eraseDups

def sort (tokens : List Token) : List Token := tokens.mergeSort fun a b => (compare a b).isLE

end Token

structure SpannedToken where
  token : Token
  span : Span
  deriving DecidableEq, Repr

end Lexis
