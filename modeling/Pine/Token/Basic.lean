import Pine.Text.Quote

/-!
# Tokens

A token is a classified piece of source text with its place. Three kinds carry no text of their
own but the layout of the source: the end of a logical line, and the opening and closing of an
indented block.
-/

namespace Pine

/-! ### Kinds -/

/-- The classes of tokens. -/
inductive Token.Kind where
  | eof | identifier | number | string | boolean | color | na | keyword | operator
  | lparen | rparen | lbracket | rbracket | lbrace | rbrace | comma | dot | colon
  | newline | indent | dedent
  deriving DecidableEq, Repr, Inhabited

namespace Token.Kind

/-- The display name of a kind. -/
def name : Kind → String
  | eof => "EOF"
  | identifier => "IDENTIFIER"
  | number => "NUMBER"
  | string => "STRING"
  | boolean => "BOOLEAN"
  | color => "COLOR"
  | na => "NA"
  | keyword => "KEYWORD"
  | operator => "OPERATOR"
  | lparen => "LPAREN"
  | rparen => "RPAREN"
  | lbracket => "LBRACKET"
  | rbracket => "RBRACKET"
  | lbrace => "LBRACE"
  | rbrace => "RBRACE"
  | comma => "COMMA"
  | dot => "DOT"
  | colon => "COLON"
  | newline => "NEWLINE"
  | indent => "INDENT"
  | dedent => "DEDENT"

/-- All kinds, in the order in which they are numbered. -/
def all : List Kind :=
  [eof, identifier, number, string, boolean, color, na, keyword, operator, lparen, rparen,
    lbracket, rbracket, lbrace, rbrace, comma, dot, colon, newline, indent, dedent]

/-- The kind with a display name. -/
def ofName? (s : String) : Option Kind := all.find? (·.name = s)

/-- The display name of the kind with a number; a number without a kind is shown as such. -/
def nameOfNumber (n : Int) : String :=
  match n with
  | .ofNat k => (all[k]?.map name).getD s!"TokenType({n})"
  | .negSucc _ => s!"TokenType({n})"

/-- The kinds that stand for line structure rather than text. -/
def isLayout (k : Kind) : Bool := k = newline || k = indent || k = dedent

end Token.Kind

/-! ### Tokens -/

/-- A token. In a text that was read, lines and columns count from one and offsets from zero, all
in characters; a token that was put together elsewhere may carry any numbers. -/
structure Token where
  /-- The class of the token. -/
  kind : Token.Kind
  /-- The source text, or the decoded value of a string. -/
  lexeme : String
  /-- The line of the first character. -/
  line : Int
  /-- The column of the first character. -/
  column : Int
  /-- The offset of the first character. -/
  start : Int
  /-- The offset one past the last character. -/
  stop : Int
  deriving DecidableEq, Repr, Inhabited

namespace Token

/-- An operator with the given spelling. -/
def isOp (t : Token) (spelling : String) : Bool := t.kind = .operator && t.lexeme = spelling

/-- A keyword with the given spelling. -/
def isKeyword (t : Token) (word : String) : Bool := t.kind = .keyword && t.lexeme = word

/-- How messages name a token: by its text, or by what it stands for. -/
def text (t : Token) : String :=
  match t.kind with
  | .eof => "end of input"
  | .newline => "newline"
  | .indent => "indent"
  | .dedent => "dedent"
  | _ => t.lexeme

/-- One line of a token listing. -/
def describe (t : Token) : String :=
  s!"{Text.padRight 10 t.kind.name} {Text.padRight 14 (Text.quote t.lexeme)}  {t.line}:{t.column}"

end Token

/-! ### Places -/

/-- A position in a text. -/
structure Place where
  /-- The number of characters before it. -/
  offset : Nat
  /-- The line, from one. -/
  line : Nat
  /-- The column, from one. -/
  column : Nat
  deriving DecidableEq, Repr

namespace Place

/-- The start of a text. -/
def first : Place := ⟨0, 1, 1⟩

/-- The position after one more character. -/
def next (p : Place) (c : Char) : Place :=
  if c = '\n' then ⟨p.offset + 1, p.line + 1, 1⟩ else ⟨p.offset + 1, p.line, p.column + 1⟩

/-- The position after a stretch of text. -/
def after (p : Place) (text : List Char) : Place := text.foldl next p

@[simp] theorem after_nil (p : Place) : p.after [] = p := rfl

@[simp] theorem after_cons (p : Place) (c : Char) (cs : List Char) :
    p.after (c :: cs) = (p.next c).after cs := rfl

theorem after_append (p : Place) (cs ds : List Char) :
    p.after (cs ++ ds) = (p.after cs).after ds := List.foldl_append

end Place

end Pine
