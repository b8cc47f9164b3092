import Emend.Commit.Target

namespace Emend

namespace Backup

def dotted (ext : Text) : Text := if ext.head? = some '.' then ext else '.' :: ext

def pathText (dest ext : Text) : Text := dest ++ dotted ext

/-- The names that lead to the backup of a file. An extension may hold slashes. -/
def names (dest : Path) (ext : Text) : List Name :=
  dest.dropLast ++ Path.pieces (dest.getLastD [] ++ dotted ext)

/-- Keeps what a modified file holds. Where the caller knows its text, that is written, else the
file is copied. -/
def write (ext : Option Text) (c : Target) : Call Unit := fun t =>
  match ext with
  | none => .ok () t
  | some ext =>
    if ext = [] ∨ c.action ≠ .modify ∨ !t.has c.dest then .ok () t
    else
      match c.change.former with
      | none => FileTree.copyFile c.dest (names c.dest ext) t
      | some former => FileTree.writeFile (names c.dest ext) former.encode t

end Backup

end Emend
