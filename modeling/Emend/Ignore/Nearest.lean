import Emend.FileTree.Call
import Emend.Ignore.Rule

namespace Emend

namespace Rules

def fileName : Name := ".gitignore".toList

def defaultLines : List Line := [".git/".toList]

def upward (dir : Path) : List Path := (List.range (dir.length + 1)).reverse.map dir.take

/-- The directory of the nearest ignore file, and what the file holds. An entry that cannot be read as
a file is passed by. -/
def nearest (t : FileTree) (dir : Path) : Option (Path × ByteArray) :=
  (upward dir).findSome? fun d =>
    match t.find (d ++ [fileName]) with
    | .ok (.file b) => some (d, b)
    | _ => none

def startOf (t : FileTree) (p : Path) : Path := if t.hasFile p then p.parent else p

/-- The rules for what is below a path. A malformed ignore file counts as empty. -/
def forPath (t : FileTree) (p : Path) : Except Rule.Fault Rules :=
  let lines := match nearest t (startOf t p) with
    | some (_, b) => (Text.decodeLenient b).brokenLines
    | none => []
  match ofLines (defaultLines ++ lines) with
  | .error .malformed => ofLines defaultLines
  | r => r

end Rules

end Emend
