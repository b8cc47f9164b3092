import Emend.Commit
import Emend.Envelope
import Emend.Ignore.Nearest
import Emend.Patch.Document

namespace Emend

inductive Refusal
  | patch (e : PatchError)
  | outside (path : Text)
  | ignored (path : Text)
  | fileExists (path : Text)
  | destinationExists (path : Text)
  | notFound (path : Text)
  | notText (path : Text)
  | unknownPolicy
  | badRules
  | aborted (a : Abort)
deriving DecidableEq, Repr

def Refusal.message : Refusal → Text
  | patch e => e.message
  | outside p => Path.outside p
  | ignored p => "Path '".toList ++ p ++ "' is excluded by .gitignore".toList
  | fileExists p => "Add File Error - file already exists: '".toList ++ p ++ ['\x27']
  | destinationExists p => "Move Error - destination already exists: '".toList ++ p ++ ['\x27']
  | notFound p => "File not found: '".toList ++ p ++ ['\x27']
  | notText p => "File is not valid UTF-8 text: '".toList ++ p ++ ['\x27']
  | unknownPolicy => Policy.unknown
  | badRules => []
  | aborted a => a.message

structure Draft where
  /-- The places that operations have been found to touch. -/
  claimed : List Path := []
  changes : List Change := []
  fuzz : Ledger Text Nat := []
  log : List Text := []

namespace Draft

/-- A step of working out a patch. What it finds out before it fails is kept. -/
abbrev Drafting := EStateM Refusal Draft

/-- The place of a path within the base, if the rules do not exclude it. -/
def guarded (base : RealPath) (rules : Option Rules) (path : Text) : Except Refusal Path :=
  match base.resolve? path with
  | none => .error (.outside path)
  | some p =>
    if rules.any fun r => r.excludes (Path.relative base.path p) then .error (.ignored path) else .ok p

/-- Takes the place of a path for one operation alone. -/
def claim (base : RealPath) (rules : Option Rules) (path : Text) : Drafting Path := do
  let p ← ofExcept (guarded base rules path)
  let d ← get
  if d.claimed.contains p then throw (.patch (.duplicatePath path))
  else
    set { d with claimed := d.claimed ++ [p] }
    pure p

def change (c : Change) : Drafting Unit := modify fun d => { d with changes := d.changes ++ [c] }

/-- Logs what a body did, and goes on only if it succeeded. -/
def patched (p : Patched) : Drafting (Text × Nat) := do
  modify fun d => { d with log := d.log ++ p.log }
  match p.outcome with
  | .ok r => pure r
  | .error e => throw (.patch e)

def add (t : FileTree) (p : Path) (path : Text) (body : Text) : Drafting Unit := do
  if t.has p then throw (.fileExists path)
  else
    let (text, _) ← patched (Patched.create body)
    change { action := .create, path := path, content := some text }

def bytes (t : FileTree) (p : Path) (path : Text) : Except Refusal ByteArray :=
  match t.find p with
  | .ok (.file b) => .ok b
  | _ => .error (.notFound path)

/-- A file that is no text can be deleted, though not brought back from its text. -/
def delete (t : FileTree) (p : Path) (path : Text) : Drafting Unit := do
  let b ← ofExcept (bytes t p path)
  change { action := .delete, path := path, former := Text.decode? b }

def updated (path : Text) (fuzz : Nat) : Text :=
  path ++ ": updated with fuzz ".toList ++ Text.ofNat fuzz

/-- An update that moves its file makes the new one and deletes the old. -/
def update (t : FileTree) (base : RealPath) (rules : Option Rules) (p : Path) (path body : Text)
    (moveTo : Option Text) : Drafting Unit := do
  let b ← ofExcept (bytes t p path)
  match Text.decode? b with
  | none => throw (.notText path)
  | some former =>
    let (text, fuzz) ← patched (Patched.updateFile former body)
    modify fun d => { d with fuzz := d.fuzz.set path fuzz, log := d.log ++ [updated path fuzz] }
    match moveTo with
    | none => change { action := .modify, path := path, content := some text, former := some former }
    | some newPath =>
      let dest ← claim base rules newPath
      if t.has dest then throw (.destinationExists newPath)
      else
        change { action := .create, path := newPath, content := some text }
        change { action := .delete, path := path, former := some former }

/-- Works out one operation. The tree is only read. -/
def operation (t : FileTree) (base : RealPath) (rules : Option Rules) (op : Operation) : Drafting Unit := do
  let p ← claim base rules op.path
  match op with
  | .add path _ => add t p path op.diff
  | .delete path => delete t p path
  | .update path _ moveTo => update t base rules p path op.diff moveTo

def operations (t : FileTree) (base : RealPath) (rules : Option Rules) : List Operation → Drafting Unit
  | [] => pure ()
  | op :: ops => do
    operation t base rules op
    operations t base rules ops

def ofPatch (t : FileTree) (base : RealPath) (respectRules : Bool) (patch : Text) : Drafting Unit := do
  let rules ←
    if respectRules then
      match Rules.forPath t base.path with
      | .ok r => pure (some r)
      | .error _ => throw .badRules
    else pure none
  match Envelope.read patch with
  | .error e => throw (.patch e)
  | .ok ops =>
    let count := "patch envelope holds ".toList ++ Text.ofNat ops.length ++ " file operations".toList
    modify fun d => { d with log := d.log ++ [count] }
    operations t base rules ops

end Draft

/-- What applying a patch gave: a report, or why there is none; the tree; and the records written. -/
structure Applied where
  outcome : Except Refusal Summary
  tree : FileTree
  log : List Record

/-- Applies a patch below a directory without links on the way to it. -/
def Applied.ofPatchAt (t : FileTree) (base : RealPath) (patch : Text) (options : Options)
    (respectRules : Bool) : Applied :=
  match Draft.ofPatch t base respectRules patch {} with
  | .error e d => ⟨.error e, t, d.log.map (Record.debug .files)⟩
  | .ok _ d =>
    let log := d.log.map (Record.debug .files)
    match options.policy with
    | none => ⟨.error .unknownPolicy, t, log⟩
    | some policy =>
      let made := Commit.run t base.path d.changes policy options
      match made.outcome with
      | .error a => ⟨.error (.aborted a), made.tree, log ++ made.log⟩
      | .ok summary => ⟨.ok { summary with fuzz := d.fuzz }, made.tree, log ++ made.log⟩

/-- Applies a patch below the directory that the names lead to. -/
def Applied.ofPatch (t : FileTree) (names : List Name) (patch : Text) (options : Options)
    (respectRules : Bool) : Applied :=
  match t.realPath names with
  | .error a => ⟨.error (.aborted a), t, []⟩
  | .ok base => Applied.ofPatchAt t base patch options respectRules

end Emend
