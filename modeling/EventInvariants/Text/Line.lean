import EventInvariants.Text.Blank

namespace EventInvariants.Text

/-- The text without a carriage return at its end. -/
def dropReturn (cs : List Char) : List Char :=
  if cs.getLast? = some '\r' then cs.dropLast else cs

/-- The lines that are seen when a text and a newline are printed. A line ends with a newline, or
with a carriage return and a newline. -/
def lines (s : String) : List String :=
  (splitAt '\n' s.toList).map fun cs => String.ofList (dropReturn cs)

end EventInvariants.Text
