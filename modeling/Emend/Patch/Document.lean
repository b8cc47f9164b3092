import Emend.Text.Terminator
import Emend.Patch.Reading
import Emend.Patch.Addition

namespace Emend

inductive BodyKind
  /-- Sections that edit the document. -/
  | update
  /-- The text of a new document. -/
  | create
deriving DecidableEq, Repr

def BodyKind.ofName? (name : Text) : Option BodyKind :=
  if name = "default".toList then some .update
  else if name = "create".toList then some .create
  else none

def BodyKind.unknown (name : Text) : Text := name.quoted ++ " is not a valid ApplyDiffMode".toList

/-- The outcome of applying a body: the new text with its fuzz, or why there is none; and the lines
logged on the way. -/
structure Patched where
  outcome : Except PatchError (Text × Nat)
  log : List Text

namespace Patched

def update (doc body : Text) : Patched :=
  let reading := Reading.ofLines (patchLines body) doc.lines
  match reading.result with
  | .error e => ⟨.error e, reading.log⟩
  | .ok (chunks, fuzz) =>
    let summary := "parsed ".toList ++ Text.ofNat chunks.length ++ " chunks, total fuzz ".toList ++
      Text.ofNat fuzz
    ⟨(Chunk.apply chunks doc).map (·, fuzz), reading.log ++ [summary]⟩

def create (body : Text) : Patched :=
  let ls := patchLines body
  ⟨(Addition.text ls).map (·, 0),
    ["create mode: ".toList ++ Text.ofNat ls.length ++ " lines".toList]⟩

def ofKind (kind : BodyKind) (doc body : Text) : Patched :=
  match kind with
  | .update => update doc body
  | .create => create body

/-- The file's text with the sections of the body made in it. Lines are told apart by the file's own
terminator, which all lines get. -/
def updateFile (file body : Text) : Patched :=
  let e := Terminator.detect file
  let patched := update (e.toLf file) body
  { patched with outcome := patched.outcome.map fun (t, fuzz) => (e.fromLf t, fuzz) }

end Patched

end Emend
