import Emend.Commit.Atomic
import Emend.Commit.Direct
import Emend.Commit.Pass
import Emend.Log

namespace Emend

/-- A report, or why the batch was given up without one; the tree as it is then; and the records
written on the way. -/
structure Committed where
  outcome : Except Abort Summary
  tree : FileTree
  log : List Record := []

namespace Commit

def rollbackLine (path : Text) (e : Failure) : Text :=
  "rollback of ".toList ++ path ++ " failed: ".toList ++ e.message

def rollback (failures : List (Text × Failure)) (w : Workspace) : Committed :=
  let undone := w.rollback
  let log := undone.failures.map fun (p, e) => ⟨.commit, .warning, rollbackLine p e⟩
  match undone.abort? with
  | some a => ⟨.error a, undone.state.tree, log⟩
  | none => ⟨.ok (.of false [] failures), undone.state.discard, log⟩

/-- Moves staged contents into their places. Under the fail-fast policy all is undone if one fails. -/
def promote (policy : Policy) (backup : Option Text) (failures : List (Text × Failure))
    (targets : List Target) (w : Workspace) : Committed :=
  let promoted := Pass.run policy Target.path (Workspace.promote backup) (failures.map (·.1)) targets w
  let failures := failures ++ promoted.failures
  match promoted.abort? with
  | some a => ⟨.error a, promoted.state.tree, []⟩
  | none =>
    if promoted.halted policy then rollback failures promoted.state
    else
      ⟨.ok (.of false (promoted.state.promoted.map Target.path) failures), promoted.state.discard, []⟩

/-- Makes all changes or, under the fail-fast policy, none if one fails. A batch that is given up leaves
everything as it is then, temporary files included. -/
def atomic (t : FileTree) (policy : Policy) (backup : Option Text)
    (failures : List (Text × Failure)) (targets : List Target) : Committed :=
  let staged := Pass.run policy Target.path (fun _ => Workspace.stage) [] targets
    (Workspace.start t backup targets)
  let failures := failures ++ staged.failures
  match staged.abort? with
  | some a => ⟨.error a, staged.state.tree, []⟩
  | none =>
    if staged.halted policy then ⟨.ok (.of false [] failures), staged.state.discard, []⟩
    else promote policy backup failures targets staged.state

/-- Makes the changes one by one. What has been made before a failure stays. -/
def direct (t : FileTree) (policy : Policy) (backup : Option Text)
    (failures : List (Text × Failure)) (targets : List Target) : Committed :=
  let made := Pass.run policy Target.path
    (fun _ c => ((Direct.apply backup c).map fun _ => c.path).adaptExcept Failure.call) [] targets t
  match made.abort? with
  | some a => ⟨.error a, made.state, []⟩
  | none => ⟨.ok (.of false made.done (failures ++ made.failures)), made.state, []⟩

/-- Says what would be done. No call is made for that, so the batch is never given up. -/
def dryRun (t : FileTree) (policy : Policy) (failures : List (Text × Failure))
    (targets : List Target) : Committed :=
  let planned := Pass.run policy Target.path (fun _ c => ofExcept (c.plan t)) [] targets ()
  ⟨.ok (.of true planned.done (failures ++ planned.failures)), t, []⟩

def startLine (base : RealPath) (count : Nat) (isAtomic : Bool) (policy : Policy) : Text :=
  "committing ".toList ++ Text.ofNat count ++ " changes under ".toList ++ base.toText ++
    " (atomic=".toList ++ Text.ofBool isAtomic ++
    ", mode=".toList ++ policy.name ++ [')']

def runAt (t : FileTree) (base : RealPath) (changes : List Change) (policy : Policy)
    (options : Options) : Committed :=
  let resolved := Pass.run policy Change.path (fun _ c => ofExcept (c.resolve t base)) [] changes ()
  match resolved.abort? with
  | some a => ⟨.error a, t, []⟩
  | none =>
    if resolved.halted policy then ⟨.ok (.of options.dryRun [] resolved.failures), t, []⟩
    else if options.dryRun then dryRun t policy resolved.failures resolved.done
    else
      let made :=
        if options.atomic then
          atomic t policy options.backupExt resolved.failures resolved.done
        else direct t policy options.backupExt resolved.failures resolved.done
      let start := Record.debug .commit (startLine base resolved.done.length options.atomic policy)
      { made with log := start :: made.log }

/-- Commits the changes below the directory that the names lead to. -/
def run (t : FileTree) (names : List Name) (changes : List Change) (policy : Policy)
    (options : Options) : Committed :=
  match t.realPath names with
  | .error a => ⟨.error a, t, []⟩
  | .ok base => runAt t base changes policy options

end Commit

end Emend
