/-!
# Replacing marks in a text

Occurrences of a mark are found from left to right and do not overlap. Text put in for one
occurrence is not searched again for the same mark.
-/

namespace ShaderGraph.Text

/-- Walks a text whose next `skip` characters belong to an occurrence already replaced. -/
def replaceFrom (mark new : List Char) : Nat → List Char → List Char
  | _, [] => []
  | skip + 1, _ :: rest => replaceFrom mark new skip rest
  | 0, c :: rest =>
    if mark.isPrefixOf (c :: rest) then
      new ++ replaceFrom mark new (mark.length - 1) rest
    else
      c :: replaceFrom mark new 0 rest

/-- The text with every occurrence of a non-empty mark replaced. -/
def replaceChars (mark new text : List Char) : List Char :=
  replaceFrom mark new 0 text

/-- The text with every occurrence of a non-empty mark replaced. -/
def replace (mark new text : String) : String :=
  String.ofList (replaceChars mark.toList new.toList text.toList)

end ShaderGraph.Text
