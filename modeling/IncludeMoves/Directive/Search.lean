import IncludeMoves.Directive.Style
import IncludeMoves.Text.Pattern

/-!
# Finding directives in a text

A directive is a whole line: spaces, `#`, spaces, `include`, spaces, a token in double quotes or
angle brackets, spaces, and the newline. Only the ASCII space counts as a space, the token is as
long as the line allows, and a line without its newline is no directive.

`segments` cuts a text into directives and the characters between them; the concatenation of their
texts is the text again.
-/

namespace IncludeMoves

namespace Directive

/-- Any number of spaces. -/
def spaces : Pattern :=
  .many (.only ' ')

/-- One or more characters of a line between two delimiters. -/
def token (s : Style) : Pattern :=
  .sequence [.one (.only s.opening), .oneOrMore (.except '\n'), .one (.only s.closing)]

/-- **The directive line.** The group is the delimited token. Of blanks only spaces are allowed, and the
newline belongs to the line, so that a removed directive leaves no empty line. -/
def pattern : Pattern :=
  .sequence [.lineStart, spaces, .one (.only '#'), spaces, .word "include".toList, spaces,
    .group (.either (token .angled) (token .quoted)), spaces, .one (.only '\n')]

/-- A text cut into directive lines and the characters between them. What is put together again from the
pieces is the text. -/
def segments (text : List Char) : List Pattern.Piece :=
  pattern.pieces text

end Directive

end IncludeMoves
