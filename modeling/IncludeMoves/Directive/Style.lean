/-!
# The two styles of an include directive

A directive names its file between double quotes or between angle brackets. `Style.ofToken` reads
the style off a delimited token, `Token.bare` the path between the delimiters, and `Style.render`
writes the directive in its canonical form.
-/

namespace IncludeMoves

/-- How a directive delimits its path: `"path"` or `<path>`. -/
inductive Style where
  | quoted
  | angled
  deriving DecidableEq, Repr, Inhabited

namespace Style

/-- The delimiter in front of the path. -/
def opening : Style → Char
  | quoted => '"'
  | angled => '<'

/-- The delimiter behind the path. -/
def closing : Style → Char
  | quoted => '"'
  | angled => '>'

/-- The style that a token's first and last character show, if they belong together. A single quote is a
token of its own style: it is its first and its last character. -/
def ofToken? (token : List Char) : Option Style :=
  match token.head?, token.getLast? with
  | some '"', some '"' => some quoted
  | some '<', some '>' => some angled
  | _, _ => none

/-- A token whose delimiters do not belong together counts as quoted. -/
def ofToken (token : List Char) : Style :=
  (ofToken? token).getD quoted

/-- The delimited token of a path. The path may have delimiters in it; read back, the token then need
not give the same style and path. -/
def delimit (s : Style) (path : List Char) : List Char :=
  s.opening :: path ++ [s.closing]

/-- The canonical directive line of a path, its newline included. -/
def line (s : Style) (path : List Char) : List Char :=
  "#include ".toList ++ s.delimit path ++ ['\n']

/-- The canonical directive line as text. -/
def render (s : Style) (path : String) : String :=
  String.ofList (s.line path.toList)

end Style

namespace Token

/-- A token is malformed if its delimiters do not belong together. The search for directives finds no
such token, but a record can have one. -/
def isMalformed (token : List Char) : Bool :=
  (Style.ofToken? token).isNone

/-- The path of a token: what is left without its first and its last character. -/
def bare (token : List Char) : List Char :=
  token.tail.dropLast

end Token

end IncludeMoves
