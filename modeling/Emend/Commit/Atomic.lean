import Emend.Commit.Backup
import Emend.Commit.Pass
import Emend.Commit.Summary

namespace Emend

/-- A tree with what a commit has under way in it. -/
structure Workspace where
  tree : FileTree
  /-- Names that no temporary file gets. -/
  reserved : List Name := []
  /-- The temporary file with the new content of a place. -/
  staged : Ledger Path Path := []
  /-- The temporary file with what stood at a place. -/
  trash : Ledger Path Path := []
  promoted : List Target := []

abbrev Work := EStateM Failure Workspace

namespace Workspace

/-- The start of a commit. Temporary names are drawn so that nothing else in the commit meets them: they
are on no path that it changes or backs up, and on no link. -/
def start (t : FileTree) (backup : Option Text) (targets : List Target) : Workspace where
  tree := t
  reserved := targets.flatMap (fun c => c.dest ++ backup.toList.flatMap (Backup.names c.dest)) ++
    t.linkNames

def call {α : Type} (c : Call α) : Work α := fun w =>
  match c w.tree with
  | .ok a t => .ok a { w with tree := t }
  | .error e t => .error (.call e) { w with tree := t }

def stage (c : Target) : Work Unit := do
  let w ← get
  match c.action with
  | .delete => pure ()
  | _ =>
    if (w.staged.lookup c.dest).isSome then throw (.writtenTwice c.path)
    else
      call (FileTree.makeDirs c.dest.parent)
      let temp ← call (FileTree.makeTemp w.reserved c.dest.parent .staged c.bytes)
      modify fun w => { w with staged := w.staged.set c.dest temp }

/-- Moves a file out of its place, so that it can be put back as it is. -/
def setAside (dest : Path) : Work Unit := do
  let w ← get
  let temp ← call (FileTree.makeTemp w.reserved dest.parent .setAside .empty)
  call (FileTree.rename dest temp)
  modify fun w => { w with trash := w.trash.set dest temp }

/-- Removes the file of a change, if there is one. A file whose text is not known is set aside. -/
def promoteDelete (c : Target) : Work Unit := do
  let w ← get
  if w.tree.has c.dest then
    if c.change.former.isSome then call (FileTree.removeFile c.dest)
    else setAside c.dest

/-- Moves staged content into its place. From then on the workspace does not track it. -/
def promoteWrite (backup : Option Text) (c : Target) : Work Unit := do
  let w ← get
  if c.action = .modify ∧ !w.tree.has c.dest then throw (.nothingToModify c.path)
  else
    match w.staged.lookup c.dest with
    | none => throw (.notStaged c.action.name c.path)
    | some temp =>
      set { w with staged := w.staged.remove c.dest }
      call (Backup.write backup c)
      call (FileTree.rename temp c.dest)

/-- Makes a change whose content is staged. A change whose path has failed is passed over. -/
def promote (backup : Option Text) (failed : List Text) (c : Target) : Work Unit := do
  if failed.contains c.path then pure ()
  else
    match c.action with
    | .delete => promoteDelete c
    | _ => promoteWrite backup c
    modify fun w => { w with promoted := w.promoted ++ [c] }

/-- Undoes one promoted change: a file that was made is removed, one that was set aside is put back,
any other gets its text again where that is known. -/
def undo (c : Target) : Work Unit := do
  let w ← get
  match c.action with
  | .create => if w.tree.has c.dest then call (FileTree.removeFile c.dest)
  | _ =>
    match w.trash.lookup c.dest with
    | some temp =>
      set { w with trash := w.trash.remove c.dest }
      call (FileTree.rename temp c.dest)
    | none =>
      match c.change.former with
      | some former => call (FileTree.writeFile c.dest former.encode)
      | none => pure ()

/-- Undoes what was promoted, the last change first. One that cannot be undone does not keep the
others from it. -/
def rollback (w : Workspace) : Pass Workspace Unit :=
  Pass.run .bestEffort Target.path (fun _ => undo) [] w.promoted.reverse w

def discardFile (t : FileTree) (temp : Path) : FileTree :=
  if t.has temp then
    match FileTree.removeFile temp t with
    | .ok _ t => t
    | .error _ t => t
  else t

def discard (w : Workspace) : FileTree :=
  ((w.staged ++ w.trash).map (·.2)).foldl discardFile w.tree

end Workspace

end Emend
