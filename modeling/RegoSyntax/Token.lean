/-
# RegoSyntax.Token — the kinds of token of the Rego policy language.

A token kind says what a stretch of source text is, never which text it was.  Operator kinds are
named after the builtin function that the operator stands for (`+` is `plus`, `=` is `eq`), since
that is the name under which the operator enters a syntax tree.

Two groups of reserved words are told apart: the words that every dialect reserves, and the four
*future* words that a dialect or an import has to switch on.
-/

namespace RegoSyntax

/-- What a stretch of source text is. -/
inductive Token where
  | illegal | eof | whitespace | ident | comment
  /- words reserved in every dialect -/
  | packageKw | importKw | asKw | defaultKw | elseKw | notKw | someKw | withKw
  | nullKw | trueKw | falseKw
  /- literals -/
  | number | string
  /- delimiters -/
  | lbrack | rbrack | lbrace | rbrace | lparen | rparen | comma | colon | dot | semicolon
  /- operators -/
  | plus | minus | star | slash | percent | amp | bar | unify | equal | assign
  | neq | gt | lt | gte | lte
  /- words that have to be switched on -/
  | inKw | everyKw | containsKw | ifKw
deriving DecidableEq, Repr, Inhabited

namespace Token

/-- Every kind of token, in the order of its definition. -/
def all : List Token :=
  [illegal, eof, whitespace, ident, comment,
   packageKw, importKw, asKw, defaultKw, elseKw, notKw, someKw, withKw, nullKw, trueKw, falseKw,
   number, string,
   lbrack, rbrack, lbrace, rbrace, lparen, rparen, comma, colon, dot, semicolon,
   plus, minus, star, slash, percent, amp, bar, unify, equal, assign, neq, gt, lt, gte, lte,
   inKw, everyKw, containsKw, ifKw]

/-- The name by which messages and syntax trees speak of a kind of token. -/
def name : Token → String
  | illegal => "illegal"
  | eof => "eof"
  | whitespace => "whitespace"
  | ident => "identifier"
  | comment => "comment"
  | packageKw => "package"
  | importKw => "import"
  | asKw => "as"
  | defaultKw => "default"
  | elseKw => "else"
  | notKw => "not"
  | someKw => "some"
  | withKw => "with"
  | nullKw => "null"
  | trueKw => "true"
  | falseKw => "false"
  | number => "number"
  | string => "string"
  | lbrack => "["
  | rbrack => "]"
  | lbrace => "\x7b"
  | rbrace => "\x7d"
  | lparen => "("
  | rparen => ")"
  | comma => ","
  | colon => ":"
  | dot => "."
  | semicolon => ";"
  | plus => "plus"
  | minus => "minus"
  | star => "mul"
  | slash => "div"
  | percent => "rem"
  | amp => "and"
  | bar => "or"
  | unify => "eq"
  | equal => "equal"
  | assign => "assign"
  | neq => "neq"
  | gt => "gt"
  | lt => "lt"
  | gte => "gte"
  | lte => "lte"
  | inKw => "in"
  | everyKw => "every"
  | containsKw => "contains"
  | ifKw => "if"

/-- The name under which listings of tokens show a kind of token.  Every kind has one of its own. -/
def label : Token → String
  | illegal => "Illegal"
  | eof => "Eof"
  | whitespace => "Whitespace"
  | ident => "Ident"
  | comment => "Comment"
  | packageKw => "Package"
  | importKw => "Import"
  | asKw => "As"
  | defaultKw => "Default"
  | elseKw => "Else"
  | notKw => "Not"
  | someKw => "Some"
  | withKw => "With"
  | nullKw => "Null"
  | trueKw => "True"
  | falseKw => "False"
  | number => "Number"
  | string => "String"
  | lbrack => "LBrack"
  | rbrack => "RBrack"
  | lbrace => "LBrace"
  | rbrace => "RBrace"
  | lparen => "LParen"
  | rparen => "RParen"
  | comma => "Comma"
  | colon => "Colon"
  | dot => "Dot"
  | semicolon => "Semicolon"
  | plus => "Add"
  | minus => "Sub"
  | star => "Mul"
  | slash => "Quo"
  | percent => "Rem"
  | amp => "And"
  | bar => "Or"
  | unify => "Unify"
  | equal => "Equal"
  | assign => "Assign"
  | neq => "Neq"
  | gt => "Gt"
  | lt => "Lt"
  | gte => "Gte"
  | lte => "Lte"
  | inKw => "In"
  | everyKw => "Every"
  | containsKw => "Contains"
  | ifKw => "If"

/-- The kind of token with a label. -/
def ofLabel? (text : String) : Option Token := all.find? (·.label == text)

/-- A word that every dialect reserves. -/
def isKeyword : Token → Bool
  | packageKw | importKw | asKw | defaultKw | elseKw | notKw | someKw | withKw
  | nullKw | trueKw | falseKw => true
  | _ => false

/-- A word that is reserved only where a dialect or an import switches it on. -/
def isFutureKeyword : Token → Bool
  | inKw | everyKw | containsKw | ifKw => true
  | _ => false

end Token

end RegoSyntax
