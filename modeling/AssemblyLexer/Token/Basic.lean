import AssemblyLexer.Number.Literal
import AssemblyLexer.Token.Kind

/-!
Tokens with what they stand for.
-/

set_option autoImplicit false

namespace AssemblyLexer

/-- Where a label can be seen. Local and hidden labels are not emitted, private ones are emitted
but not exported, weak and public ones are exported, and a weak one can be overridden. -/
inductive LabelScope
  | localLabel
  | hiddenLabel
  | privateLabel
  | weakLabel
  | publicLabel
  deriving DecidableEq, Repr

def LabelScope.spelling : LabelScope → String
  | localLabel => "local"
  | hiddenLabel => "hidden"
  | privateLabel => "private"
  | weakLabel => "weak"
  | publicLabel => "public"

inductive Token
  | identifier (name : Bytes)
  | label (name : Bytes) (scope : LabelScope)
  | parameter (name : Bytes)
  | integer (literal : NumberLiteral)
  | float (literal : NumberLiteral)
  | string (content : Bytes)
  | character (value : Char) (content : Bytes)
  | symbol (kind : TokenKind)
  deriving DecidableEq

namespace Token

def kind : Token → TokenKind
  | identifier _ => .identifier
  | label _ _ => .label
  | parameter _ => .parameter
  | integer _ => .integer
  | float _ => .float
  | string _ => .string
  | character _ _ => .character
  | symbol kind => kind

/-- The name that the token carries. -/
def name? : Token → Option Bytes
  | identifier name => some name
  | label name _ => some name
  | parameter name => some name
  | _ => none

end Token

end AssemblyLexer
