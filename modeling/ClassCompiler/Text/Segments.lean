/-!
# Dotted names

A qualified name is a text whose segments are divided by dots. The functions
here cut such a text without building the list of its segments, because only
the first and the last segment are ever asked for.

Key definitions: `isDotted`, `firstSegment`, `lastSegment`, `qualify`.
-/

namespace ClassCompiler
namespace Text

/-- Whether a name has more than one segment. -/
def isDotted (name : String) : Bool :=
  name.toList.contains '.'

/-- The text before the first dot; the whole text if there is none. -/
def firstSegment (name : String) : String :=
  String.ofList (name.toList.takeWhile (· != '.'))

/-- The text after the last dot; the whole text if there is none. -/
def lastSegment (name : String) : String :=
  String.ofList (name.toList.reverse.takeWhile (· != '.')).reverse

/-- The name of a type in a package. The unnamed package adds nothing. -/
def qualify (package name : String) : String :=
  if package = "" then name else package ++ "." ++ name

theorem qualify_empty (name : String) : qualify "" name = name := rfl

/-- The lines of a text, each ended by a line break. -/
def lines (ls : List String) : String :=
  String.join (ls.map (· ++ "\n"))

end Text
end ClassCompiler
