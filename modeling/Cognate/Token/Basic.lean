import Cognate.Text.Quoted

/-! # Tokens

The words and marks of C declarations. `Token.label` names a token for listings, `Token.describe` for messages. -/

namespace Cognate

/-! ## Keywords -/

/-- Words with a fixed meaning; several spellings can name one keyword. -/
inductive Keyword where
  | typedef | external | static | auto | register | threadLocal | inline | noreturn | extension
  | void | char | short | int | long | float | double | signed | unsigned | bool | complex | int128 | half
  | wchar | char16 | char32 | autoType | struct | union | enum
  | const | volatile | restrict | atomic
  | sizeof | alignof | attributes
deriving DecidableEq, Repr

namespace Keyword

/-- Every spelling and the keyword it stands for. -/
def spellings : List (String × Keyword) :=
  [("typedef", typedef), ("extern", external), ("static", static), ("auto", auto), ("register", register),
   ("_Thread_local", threadLocal), ("inline", inline), ("__inline", inline), ("__inline__", inline),
   ("_Noreturn", noreturn), ("__extension__", extension),
   ("void", void), ("char", char), ("short", short), ("int", int), ("long", long), ("float", float),
   ("double", double), ("signed", signed), ("__signed", signed), ("__signed__", signed), ("unsigned", unsigned),
   ("_Bool", bool), ("_Complex", complex), ("__complex__", complex), ("__int128", int128), ("__fp16", half),
   ("wchar_t", wchar), ("char16_t", char16), ("char32_t", char32), ("__auto_type", autoType),
   ("struct", struct), ("union", union), ("enum", enum),
   ("const", const), ("__const", const), ("volatile", volatile), ("__volatile__", volatile),
   ("restrict", restrict), ("__restrict", restrict), ("__restrict__", restrict), ("_Atomic", atomic),
   ("sizeof", sizeof), ("_Alignof", alignof), ("__alignof__", alignof),
   ("__attribute__", attributes), ("__attribute", attributes)]

/-- The keyword a word spells, if it is one. -/
def ofSpelling? (word : String) : Option Keyword := spellings.lookup word

/-- Name in listings and messages. -/
def label : Keyword → String
  | typedef => "Typedef" | external => "Extern" | static => "Static" | auto => "Auto" | register => "Register"
  | threadLocal => "ThreadLocal" | inline => "Inline" | noreturn => "Noreturn" | extension => "Extension"
  | void => "Void" | char => "Char" | short => "Short" | int => "Int" | long => "Long" | float => "Float"
  | double => "Double" | signed => "Signed" | unsigned => "Unsigned" | bool => "Bool" | complex => "Complex"
  | int128 => "Int128" | half => "Fp16" | wchar => "WChar" | char16 => "Char16" | char32 => "Char32"
  | autoType => "AutoType" | struct => "Struct" | union => "Union" | enum => "Enum"
  | const => "Const" | volatile => "Volatile" | restrict => "Restrict" | atomic => "Atomic"
  | sizeof => "Sizeof" | alignof => "Alignof" | attributes => "Attribute"

/-- Names a builtin type, or part of one. -/
def isTypeWord : Keyword → Bool
  | void | char | short | int | long | float | double | signed | unsigned | bool | complex | int128 | half
  | wchar | char16 | char32 => true
  | _ => false

def isQualifier : Keyword → Bool
  | const | volatile | restrict | atomic => true
  | _ => false

/-- Storage classes and function specifiers, none of which changes a type. -/
def isStorage : Keyword → Bool
  | typedef | external | static | auto | register | threadLocal | inline | noreturn | extension => true
  | _ => false

def startsDeclaration : Keyword → Bool
  | struct | union | enum | autoType | attributes => true
  | k => k.isTypeWord || k.isQualifier || k.isStorage

end Keyword

/-! ## Marks -/

/-- Operators and punctuation. -/
inductive Punct where
  | plus | minus | star | slash | percent | eqEq | notEq | lt | gt | ltEq | gtEq | andAnd | orOr | bang
  | amp | bar | caret | tilde | shiftLeft | shiftRight | eq
  | lparen | rparen | lbracket | rbracket | lbrace | rbrace
  | semi | comma | dot | arrow | colonColon | colon | question | ellipsis
deriving DecidableEq, Repr

namespace Punct

def all : List Punct :=
  [plus, minus, star, slash, percent, eqEq, notEq, lt, gt, ltEq, gtEq, andAnd, orOr, bang, amp, bar, caret, tilde,
   shiftLeft, shiftRight, eq, lparen, rparen, lbracket, rbracket, lbrace, rbrace, semi, comma, dot, arrow,
   colonColon, colon, question, ellipsis]

def spelling : Punct → String
  | plus => "+" | minus => "-" | star => "*" | slash => "/" | percent => "%" | eqEq => "==" | notEq => "!="
  | lt => "<" | gt => ">" | ltEq => "<=" | gtEq => ">=" | andAnd => "&&" | orOr => "||" | bang => "!"
  | amp => "&" | bar => "|" | caret => "^" | tilde => "~" | shiftLeft => "<<" | shiftRight => ">>" | eq => "="
  | lparen => "(" | rparen => ")" | lbracket => "[" | rbracket => "]" | lbrace => "\x7b" | rbrace => "\x7d"
  | semi => ";" | comma => "," | dot => "." | arrow => "->" | colonColon => "::" | colon => ":"
  | question => "?" | ellipsis => "..."

/-- Name in listings. -/
def label : Punct → String
  | plus => "Plus" | minus => "Minus" | star => "Star" | slash => "Slash" | percent => "Percent"
  | eqEq => "EqEq" | notEq => "NotEq" | lt => "Lt" | gt => "Gt" | ltEq => "LtEq" | gtEq => "GtEq"
  | andAnd => "AmpAmp" | orOr => "PipePipe" | bang => "Bang" | amp => "Amp" | bar => "Pipe" | caret => "Caret"
  | tilde => "Tilde" | shiftLeft => "LtLt" | shiftRight => "GtGt" | eq => "Eq"
  | lparen => "LParen" | rparen => "RParen" | lbracket => "LBracket" | rbracket => "RBracket"
  | lbrace => "LBrace" | rbrace => "RBrace" | semi => "Semi" | comma => "Comma" | dot => "Dot"
  | arrow => "Arrow" | colonColon => "ColonColon" | colon => "Colon" | question => "Question"
  | ellipsis => "Ellipsis"

end Punct

/-! ## Binary operators -/

/-- The binary operators of constant expressions. -/
inductive BinaryOp where
  | or | and | bitOr | bitXor | bitAnd | equal | notEqual | less | greater | lessEqual | greaterEqual
  | shiftLeft | shiftRight | add | subtract | multiply | divide | remainder
deriving DecidableEq, Repr

/-- How tightly an operator binds; operators of one level group to the left. -/
def BinaryOp.precedence : BinaryOp → Nat
  | or => 4
  | and => 5
  | bitOr => 6
  | bitXor => 7
  | bitAnd => 8
  | equal | notEqual => 9
  | less | greater | lessEqual | greaterEqual => 10
  | shiftLeft | shiftRight => 11
  | add | subtract => 12
  | multiply | divide | remainder => 13

/-- The binary operator a mark stands for. -/
def Punct.binaryOp? : Punct → Option BinaryOp
  | orOr => some .or
  | andAnd => some .and
  | bar => some .bitOr
  | caret => some .bitXor
  | amp => some .bitAnd
  | eqEq => some .equal
  | notEq => some .notEqual
  | lt => some .less
  | gt => some .greater
  | ltEq => some .lessEqual
  | gtEq => some .greaterEqual
  | shiftLeft => some .shiftLeft
  | shiftRight => some .shiftRight
  | plus => some .add
  | minus => some .subtract
  | star => some .multiply
  | slash => some .divide
  | percent => some .remainder
  | _ => none

/-! ## Tokens -/

/-- The notations of literals. -/
inductive LiteralClass where
  | hex | binary | octal | decimal | float | char | string
deriving DecidableEq, Repr

namespace LiteralClass

/-- Name in listings. -/
def label : LiteralClass → String
  | hex => "HexLiteral" | binary => "BinaryLiteral" | octal => "OctalLiteral" | decimal => "IntLiteral"
  | float => "FloatLiteral" | char => "CharLiteral" | string => "StringLiteral"

/-- A literal in a message: numbers stand in quotes, characters and strings bring their own. -/
def describe (c : LiteralClass) (text : String) : String :=
  match c with
  | hex => s!"hex '{text}'"
  | binary => s!"binary '{text}'"
  | octal => s!"octal '{text}'"
  | decimal => s!"integer '{text}'"
  | float => s!"float '{text}'"
  | char => s!"char {text}"
  | string => s!"string {text}"

end LiteralClass

/-- What the reader of declarations sees: names and literals keep their text. -/
inductive Token where
  | keyword (k : Keyword)
  | name (text : String)
  | literal (c : LiteralClass) (text : String)
  | punct (p : Punct)
  | finish
deriving DecidableEq, Repr

namespace Token

/-- The token in a listing. -/
def label : Token → String
  | keyword k => k.label
  | name text => "Identifier(" ++ Text.quoted text ++ ")"
  | literal c text => c.label ++ "(" ++ Text.quoted text ++ ")"
  | punct p => p.label
  | finish => "Eof"

/-- The token in a message. -/
def describe : Token → String
  | keyword k => k.label
  | name text => s!"identifier '{text}'"
  | literal c text => c.describe text
  | punct p => "'" ++ p.spelling ++ "'"
  | finish => "end of file"

def isTypeWord : Token → Bool
  | keyword k => k.isTypeWord
  | _ => false

def isQualifier : Token → Bool
  | keyword k => k.isQualifier
  | _ => false

def isStorage : Token → Bool
  | keyword k => k.isStorage
  | _ => false

/-- Starts a declaration, whatever names are declared. -/
def startsDeclaration : Token → Bool
  | keyword k => k.startsDeclaration
  | _ => false

def binaryOp? : Token → Option BinaryOp
  | punct p => p.binaryOp?
  | _ => none

end Token
end Cognate
