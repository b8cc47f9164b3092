import Emend.Commit.Backup

namespace Emend

namespace Direct

def apply (backup : Option Text) (c : Target) : Call Unit := do
  let t ← get
  match c.action with
  | .delete => if t.has c.dest then FileTree.removeFile c.dest
  | _ =>
    FileTree.makeDirs c.dest.parent
    Backup.write backup c
    FileTree.writeFile c.dest c.bytes

end Direct

end Emend
