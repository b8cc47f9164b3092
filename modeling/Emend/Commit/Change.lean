import Emend.FileTree.Call

namespace Emend

inductive Action
  | create
  | modify
  | delete
  /-- A name that is none of these. -/
  | other (name : Text)
deriving DecidableEq, Repr

namespace Action

def name : Action → Text
  | create => "create".toList
  | modify => "modify".toList
  | delete => "delete".toList
  | other n => n

def ofName (n : Text) : Action :=
  ([create, modify, delete].find? (·.name = n)).getD (other n)

end Action

structure Change where
  action : Action
  path : Text
  /-- The text that the file gets; absent, it counts as empty. -/
  content : Option Text := none
  /-- The text that the file has; absent, it is not known. -/
  former : Option Text := none
deriving DecidableEq, Repr

def Change.text (c : Change) : Text := Text.orEmpty c.content

inductive Failure
  | unknownAction (name path : Text)
  | outside (path : Text)
  | nothingToDelete (path : Text)
  | nothingToModify (path : Text)
  /-- An earlier change of the batch writes the same file. -/
  | writtenTwice (path : Text)
  /-- Another change of the batch took the staged content. -/
  | notStaged (name path : Text)
  /-- The path cannot be resolved for a null character on it. -/
  | unresolvable
  | call (e : CallError)
deriving DecidableEq, Repr

def Failure.message : Failure → Text
  | unknownAction n p => "Unknown change action '".toList ++ n ++ "' for '".toList ++ p ++ ['\x27']
  | outside p => Path.outside p
  | nothingToDelete p => "File to delete not found: '".toList ++ p ++ ['\x27']
  | nothingToModify p => "File expected for modification not found: '".toList ++ p ++ ['\x27']
  | writtenTwice p => "More than one change writes '".toList ++ p ++ ['\x27']
  | notStaged n p => "Missing staged content for ".toList ++ n ++ " '".toList ++ p ++ ['\x27']
  | unresolvable => Abort.nullCharacter.message
  | call e => e.message

/-- A call that was not made at all is no failure of one change: it ends the batch, whatever the
policy. -/
def Failure.abort? : Failure → Option Abort
  | call (.aborted a) => some a
  | _ => none

inductive Policy
  | bestEffort
  | failFast
deriving DecidableEq, Repr

namespace Policy

def name : Policy → Text
  | bestEffort => "best_effort".toList
  | failFast => "fail_fast".toList

def ofName? (n : Text) : Option Policy := [bestEffort, failFast].find? (·.name = n)

def unknown : Text := "mode must be one of \x7b'best_effort','fail_fast'\x7d".toList

end Policy

structure Options where
  /-- Absent where the name that the caller gave names no policy. -/
  policy : Option Policy
  atomic : Bool
  dryRun : Bool := false
  backupExt : Option Text := none
deriving DecidableEq, Repr

end Emend
