import Lasso.Bytes
/-!
# Tokens of conditions and actions

Conditions are expressions and actions are statements of one grammar. Its texts are read as tokens:
names, literals, key words, operators and semicolons. A semicolon may be implied by the end of a
line, and such a semicolon is marked.
-/

namespace Lasso.Lang

/-- Operators and punctuation. -/
inductive Op where
  | add | sub | mul | quo | rem
  | and | or | xor | shl | shr | andNot
  | addAssign | subAssign | mulAssign | quoAssign | remAssign
  | andAssign | orAssign | xorAssign | shlAssign | shrAssign | andNotAssign
  | land | lor | arrow | inc | dec
  | eql | lss | gtr | assign | not | tilde
  | neq | leq | geq | define | ellipsis
  | lparen | lbrack | lbrace | comma | period
  | rparen | rbrack | rbrace | colon
  deriving DecidableEq, Repr

namespace Op

/-- How an operator is spelled. -/
def text : Op → String
  | .add => "+" | .sub => "-" | .mul => "*" | .quo => "/" | .rem => "%"
  | .and => "&" | .or => "|" | .xor => "^" | .shl => "<<" | .shr => ">>" | .andNot => "&^"
  | .addAssign => "+=" | .subAssign => "-=" | .mulAssign => "*=" | .quoAssign => "/="
  | .remAssign => "%=" | .andAssign => "&=" | .orAssign => "|=" | .xorAssign => "^="
  | .shlAssign => "<<=" | .shrAssign => ">>=" | .andNotAssign => "&^="
  | .land => "&&" | .lor => "||" | .arrow => "<-" | .inc => "++" | .dec => "--"
  | .eql => "==" | .lss => "<" | .gtr => ">" | .assign => "=" | .not => "!" | .tilde => "~"
  | .neq => "!=" | .leq => "<=" | .geq => ">=" | .define => ":=" | .ellipsis => "..."
  | .lparen => "(" | .lbrack => "[" | .lbrace => "\x7b" | .comma => "," | .period => "."
  | .rparen => ")" | .rbrack => "]" | .rbrace => "\x7d" | .colon => ":"

/-- The operators, longer spellings before their beginnings. -/
def all : List Op :=
  [.andNotAssign, .shlAssign, .shrAssign, .ellipsis,
   .addAssign, .subAssign, .mulAssign, .quoAssign, .remAssign, .andAssign, .orAssign, .xorAssign,
   .shl, .shr, .andNot, .land, .lor, .arrow, .inc, .dec, .eql, .neq, .leq, .geq, .define,
   .add, .sub, .mul, .quo, .rem, .and, .or, .xor, .lss, .gtr, .assign, .not, .tilde,
   .lparen, .lbrack, .lbrace, .comma, .period, .rparen, .rbrack, .rbrace, .colon]

/-- Whether a line that ends in the operator ends a statement. -/
def endsStatement : Op → Bool
  | .inc | .dec | .rparen | .rbrack | .rbrace => true
  | _ => false

/-- How tightly a binary operator binds; other operators have no binding strength. -/
def strength? : Op → Option Nat
  | .lor => some 1
  | .land => some 2
  | .eql | .neq | .lss | .leq | .gtr | .geq => some 3
  | .add | .sub | .or | .xor => some 4
  | .mul | .quo | .rem | .shl | .shr | .and | .andNot => some 5
  | _ => none

/-- Whether the operator assigns. -/
def assigns : Op → Bool
  | .assign | .define | .addAssign | .subAssign | .mulAssign | .quoAssign | .remAssign | .andAssign
  | .orAssign | .xorAssign | .shlAssign | .shrAssign | .andNotAssign => true
  | _ => false

end Op

/-- Key words. -/
inductive Word where
  | «break» | case | chan | const | «continue» | default | defer | else | fallthrough | for | func
  | go | goto | if | «import» | interface | map | package | range | return | select | struct
  | switch | type | var
  deriving DecidableEq, Repr

namespace Word

/-- How a key word is spelled. -/
def text : Word → String
  | .break => "break" | .case => "case" | .chan => "chan" | .const => "const"
  | .continue => "continue" | .default => "default" | .defer => "defer" | .else => "else"
  | .fallthrough => "fallthrough" | .for => "for" | .func => "func" | .go => "go" | .goto => "goto"
  | .if => "if" | .import => "import" | .interface => "interface" | .map => "map"
  | .package => "package" | .range => "range" | .return => "return" | .select => "select"
  | .struct => "struct" | .switch => "switch" | .type => "type" | .var => "var"

/-- The key words. -/
def all : List Word :=
  [.break, .case, .chan, .const, .continue, .default, .defer, .else, .fallthrough, .for, .func,
   .go, .goto, .if, .import, .interface, .map, .package, .range, .return, .select, .struct,
   .switch, .type, .var]

/-- Whether a line that ends in the key word ends a statement. -/
def endsStatement : Word → Bool
  | .break | .continue | .fallthrough | .return => true
  | _ => false

end Word

/-- A token. -/
inductive Token where
  | name (s : String)
  /-- An integer literal, as it is spelled. -/
  | int (digits : String)
  /-- A string literal, with the bytes that it stands for. -/
  | str (value : Bytes)
  /-- A literal of another kind: a floating-point or imaginary number, or a character. -/
  | literal
  | op (o : Op)
  | word (w : Word)
  /-- A semicolon; `implied` when the end of a line stands for it. -/
  | semi (implied : Bool)
  deriving DecidableEq, Repr

end Lasso.Lang
