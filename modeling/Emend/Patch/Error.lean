import Emend.Text.Basic

namespace Emend

inductive PatchError
  /-- A section holds a line that neither keeps, deletes nor inserts. -/
  | invalidLine (line : Line)
  /-- A later section is not opened by a header. -/
  | missingHeader (line : Line)
  /-- The body of an added file holds a line without a plus sign. -/
  | invalidAddition (line : Line)
  /-- A line between file operations opens none. -/
  | unknownLine (line : Line)
  | missingPath (line : Line)
  | emptySection (index : Nat) (line : Line)
  /-- The lines that a section keeps or deletes are not in the document. -/
  | contextNotFound (cursor : Nat) (context : List Line) (eof : Bool)
  /-- A chunk starts behind the document's end. -/
  | outOfRange (index : Int) (length : Nat)
  | overlap (index : Int) (cursor : Nat)
  | missingBegin
  | missingEnd
  | duplicatePath (path : Text)
deriving DecidableEq, Repr

namespace PatchError

def message : PatchError → Text
  | invalidLine l => "Invalid Line: ".toList ++ l
  | missingHeader l => "Invalid Line:\n".toList ++ l
  | invalidAddition l => "Invalid Add File Line: ".toList ++ l
  | unknownLine l => "Unknown Line: ".toList ++ l
  | missingPath l => "Missing path: ".toList ++ l
  | emptySection i l =>
    "Nothing in this section - index=".toList ++ Text.ofNat i ++ ' ' :: l
  | contextNotFound cursor context eof =>
    (if eof then "Invalid EOF Context ".toList else "Invalid Context ".toList) ++
      Text.ofNat cursor ++ ':' :: '\n' :: Text.ofLines context
  | outOfRange i n =>
    "applyDiff: chunk.origIndex ".toList ++ Text.ofInt i ++ " > input length ".toList ++ Text.ofNat n
  | overlap i cursor =>
    "applyDiff: overlapping chunk at ".toList ++ Text.ofInt i ++ " (cursor ".toList ++
      Text.ofNat cursor ++ [')']
  | missingBegin => "Invalid patch text - must start with '*** Begin Patch'".toList
  | missingEnd => "Invalid patch text - must end with '*** End Patch'".toList
  | duplicatePath p => "Duplicate Path: ".toList ++ p

end PatchError

end Emend
