import ModuleForge.Source.Span

/-!
# Tokens

The tokens of JavaScript source. Contextual words (`from`, `as`, `async`, `of`, ...) are identifiers
and are told apart by their text. A template literal is one token that keeps the tokens of its
substitutions.

- `Kind.name`: the word for a kind that messages use.
- `Kind.endsExpression`, `Kind.continuesExpression`: what decides between a division and a regular
  expression, and whether a line break ends a statement.
-/

namespace ModuleForge

namespace Token

/-- The kinds of token. -/
inductive Kind where
  | kwImport | kwExport | kwDefault | kwFunction | kwClass | kwExtends | kwConst | kwLet | kwVar
  | kwNew | kwReturn | kwTypeof | kwInstanceof | kwIn | kwDelete | kwVoid | kwThrow | kwCase | kwDo
  | kwElse | kwThis | kwSuper | kwNull | kwTrue | kwFalse | kwIf | kwFor | kwWhile | kwSwitch
  | kwTry | kwCatch | kwFinally | kwBreak | kwContinue | kwDebugger | kwWith
  | identifier | privateName | string | number | template | regex
  | assign | assignOp | operator | star | bang | tilde | increment | decrement | arrow | dot
  | questionDot | ellipsis
  | lparen | rparen | lbrace | rbrace | lbracket | rbracket | semicolon | comma | colon | question
  | atSign
  | eof | error
  deriving DecidableEq, Repr, Inhabited

/-- The reserved words and their kinds. -/
def keywords : List (String × Kind) :=
  [("import", .kwImport), ("export", .kwExport), ("default", .kwDefault),
   ("function", .kwFunction), ("class", .kwClass), ("extends", .kwExtends), ("const", .kwConst),
   ("let", .kwLet), ("var", .kwVar), ("new", .kwNew), ("return", .kwReturn),
   ("typeof", .kwTypeof), ("instanceof", .kwInstanceof), ("in", .kwIn), ("delete", .kwDelete),
   ("void", .kwVoid), ("throw", .kwThrow), ("case", .kwCase), ("do", .kwDo), ("else", .kwElse),
   ("this", .kwThis), ("super", .kwSuper), ("null", .kwNull), ("true", .kwTrue),
   ("false", .kwFalse), ("if", .kwIf), ("for", .kwFor), ("while", .kwWhile),
   ("switch", .kwSwitch), ("try", .kwTry), ("catch", .kwCatch), ("finally", .kwFinally),
   ("break", .kwBreak), ("continue", .kwContinue), ("debugger", .kwDebugger), ("with", .kwWith)]

/-- The kind of a reserved word. -/
def keyword? (word : String) : Option Kind :=
  keywords.lookup word

namespace Kind

/-- The word that messages use for a kind. -/
def name : Kind → String
  | kwImport => "Import" | kwExport => "Export" | kwDefault => "Default"
  | kwFunction => "Function" | kwClass => "Class" | kwExtends => "Extends" | kwConst => "Const"
  | kwLet => "Let" | kwVar => "Var" | kwNew => "New" | kwReturn => "Return"
  | kwTypeof => "Typeof" | kwInstanceof => "Instanceof" | kwIn => "In" | kwDelete => "Delete"
  | kwVoid => "Void" | kwThrow => "Throw" | kwCase => "Case" | kwDo => "Do" | kwElse => "Else"
  | kwThis => "This" | kwSuper => "Super" | kwNull => "Null" | kwTrue => "True"
  | kwFalse => "False" | kwIf => "If" | kwFor => "For" | kwWhile => "While"
  | kwSwitch => "Switch" | kwTry => "Try" | kwCatch => "Catch" | kwFinally => "Finally"
  | kwBreak => "Break" | kwContinue => "Continue" | kwDebugger => "Debugger" | kwWith => "With"
  | identifier => "Identifier" | privateName => "PrivateName" | string => "StringLiteral"
  | number => "NumberLiteral" | template => "TemplateLiteral" | regex => "RegexLiteral"
  | assign => "Assign" | assignOp => "AssignOp" | operator => "Operator" | star => "Star"
  | bang => "Bang" | tilde => "Tilde" | increment => "Increment" | decrement => "Decrement"
  | arrow => "Arrow" | dot => "Dot" | questionDot => "QuestionDot" | ellipsis => "DotDotDot"
  | lparen => "LParen" | rparen => "RParen" | lbrace => "LBrace" | rbrace => "RBrace"
  | lbracket => "LBracket" | rbracket => "RBracket" | semicolon => "Semicolon"
  | comma => "Comma" | colon => "Colon" | question => "Question" | atSign => "At"
  | eof => "Eof" | error => "Error"

/-- An opening bracket of any of the three shapes. -/
def isOpen : Kind → Bool
  | lparen | lbrace | lbracket => true
  | _ => false

/-- A closing bracket of any of the three shapes. -/
def isClose : Kind → Bool
  | rparen | rbrace | rbracket => true
  | _ => false

/-- The closing bracket that fits an opening one. -/
def closing? : Kind → Option Kind
  | lparen => some rparen
  | lbrace => some rbrace
  | lbracket => some rbracket
  | _ => none

/-- Whether an expression can end with a token of this kind. -/
def endsExpression : Kind → Bool
  | identifier | privateName | string | number | template | regex | kwThis | kwSuper | kwNull
  | kwTrue | kwFalse | rparen | rbracket | rbrace | increment | decrement => true
  | _ => false

/-- Whether a token of this kind at the start of a line goes on with the expression of the line
before. -/
def continuesExpression : Kind → Bool
  | assign | assignOp | operator | star | arrow | dot | questionDot | lparen | lbracket | template
  | question | colon | comma | kwIn | kwInstanceof => true
  | _ => false

end Kind

end Token

/-- A token: its kind, its place, its text (cooked for strings and identifiers, the inside of the
quotes for templates, the message for errors), whether a line break stands before it, and, for a
template, the tokens of its substitutions in order. -/
structure Token where
  kind : Token.Kind
  span : Span
  value : String
  newlineBefore : Bool := false
  substitutions : List Token := []
  deriving Repr, Inhabited

namespace Token

/-- An identifier with exactly this text. -/
def isWord (t : Token) (word : String) : Bool :=
  t.kind == .identifier && t.value == word

/-- An identifier or a reserved word: both can name a property or an export. -/
def isIdentifierName (t : Token) : Bool :=
  t.kind == .identifier || keyword? t.value == some t.kind

end Token

end ModuleForge
