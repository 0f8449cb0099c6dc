import CrossAsm.Diagnostic

/-!
# CrossAsm — tokens

A token is a lexeme with the span it was read from. Register names and mnemonics are plain
identifiers; each CPU family tells them apart.
-/

namespace CrossAsm

/-- Punctuation and operators. -/
inductive Mark where
  | hash
  | comma
  | plus
  | minus
  | star
  | slash
  | percent
  | ampersand
  | pipe
  | caret
  | tilde
  | less
  | greater
  | doubleLess
  | doubleGreater
  | openParen
  | closeParen
  | openBracket
  | closeBracket
  | colon
  | equals
  | period
  | dollar
deriving DecidableEq, Repr

namespace Mark

/-- The mark as it is written. -/
def text : Mark → String
  | .hash => "#"
  | .comma => ","
  | .plus => "+"
  | .minus => "-"
  | .star => "*"
  | .slash => "/"
  | .percent => "%"
  | .ampersand => "&"
  | .pipe => "|"
  | .caret => "^"
  | .tilde => "~"
  | .less => "<"
  | .greater => ">"
  | .doubleLess => "<<"
  | .doubleGreater => ">>"
  | .openParen => "("
  | .closeParen => ")"
  | .openBracket => "["
  | .closeBracket => "]"
  | .colon => ":"
  | .equals => "="
  | .period => "."
  | .dollar => "$"

/-- The mark that one character stands for by itself. -/
def ofChar? : Char → Option Mark
  | '#' => some .hash
  | ',' => some .comma
  | '+' => some .plus
  | '-' => some .minus
  | '*' => some .star
  | '/' => some .slash
  | '%' => some .percent
  | '&' => some .ampersand
  | '|' => some .pipe
  | '^' => some .caret
  | '~' => some .tilde
  | '<' => some .less
  | '>' => some .greater
  | '(' => some .openParen
  | ')' => some .closeParen
  | '[' => some .openBracket
  | ']' => some .closeBracket
  | ':' => some .colon
  | '=' => some .equals
  | '.' => some .period
  | '$' => some .dollar
  | _ => none

end Mark

/-- What a token says. -/
inductive Lexeme where
  /-- A mnemonic, register, directive name or symbol. -/
  | identifier (name : String)
  /-- A number or character literal, already read. -/
  | number (value : Value)
  /-- A string literal with its escapes resolved. -/
  | text (content : String)
  | mark (m : Mark)
  | newline
  /-- Stands behind the last token of the source. -/
  | endOfInput
deriving DecidableEq, Repr

/-- The kind of a lexeme, without what it carries. -/
inductive Kind where
  | identifier
  | number
  | text
  | mark (m : Mark)
  | newline
  | endOfInput
deriving DecidableEq, Repr

/-- A kind of token in words. -/
def Kind.describe : Kind → String
  | .identifier => "identifier"
  | .number => "number"
  | .text => "string"
  | .mark m => "'" ++ m.text ++ "'"
  | .newline => "new line"
  | .endOfInput => "end of input"

namespace Lexeme

/-- The kind of a lexeme. -/
def kind : Lexeme → Kind
  | .identifier _ => .identifier
  | .number _ => .number
  | .text _ => .text
  | .mark m => .mark m
  | .newline => .newline
  | .endOfInput => .endOfInput

/-- A lexeme in words. -/
def describe : Lexeme → String
  | .identifier name => "identifier `" ++ name ++ "`"
  | .number value => "number " ++ value.decimal
  | l => l.kind.describe

/-- The name of an identifier. -/
def name? : Lexeme → Option String
  | .identifier name => some name
  | _ => none

/-- Whether the lexeme ends an operand: a comma, or the end of the statement. -/
def endsOperand : Lexeme → Bool
  | .mark .comma | .newline | .endOfInput => true
  | _ => false

/-- Whether the lexeme ends a statement. -/
def endsStatement : Lexeme → Bool
  | .newline | .endOfInput => true
  | _ => false

/-- Whether the lexeme can end a value. Behind such a lexeme `%` is the remainder operator, elsewhere
it can start a binary number. -/
def endsValue : Lexeme → Bool
  | .identifier _ | .number _ | .text _ => true
  | .mark .closeParen | .mark .closeBracket | .mark .dollar => true
  | _ => false

end Lexeme

/-- A lexeme with its place in the source. -/
structure Token where
  lexeme : Lexeme
  span : Span
deriving DecidableEq, Repr

end CrossAsm
