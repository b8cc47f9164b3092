import Emend.Commit.Change

namespace Emend

/-- A change with the place it is made at. -/
structure Target where
  change : Change
  dest : Path
deriving DecidableEq, Repr

namespace Target

def path (c : Target) : Text := c.change.path

def action (c : Target) : Action := c.change.action

def bytes (c : Target) : ByteArray := c.change.text.encode

/-- What a dry run says of the change. Where one cannot write to the directory of a file, a dry run would
refuse the change; trees hold no permissions, so that case is left out. -/
def plan (t : FileTree) (c : Target) : Except Failure Text :=
  match c.action with
  | .delete =>
    if t.has c.dest then .ok ("DRY RUN: Would delete file ".toList ++ c.path)
    else .error (.nothingToDelete c.path)
  | action =>
    .ok ("DRY RUN: Would ".toList ++ action.name ++ " file ".toList ++ c.path ++ " (".toList ++
      Text.ofNat c.change.text.length ++ " bytes)".toList)

end Target

namespace Change

/-- A change is made at a path within the base. Of a file that is to be made the path is taken as it
stands; of one that should be there, links are resolved. -/
def resolve (t : FileTree) (base : RealPath) (c : Change) : Except Failure Target :=
  match c.action with
  | .other n => .error (.unknownAction n c.path)
  | .create =>
    match base.resolve? c.path with
    | some p => .ok ⟨c, p⟩
    | none => .error (.outside c.path)
  | .modify | .delete =>
    match t.realPath (base.path ++ (Path.pieces c.path).filter (· ≠ [])) with
    | .error .nullCharacter => .error .unresolvable
    | .error a => .error (.call (.aborted a))
    | .ok p => if base.Within p.path then .ok ⟨c, p.path⟩ else .error (.outside c.path)

end Change

end Emend
