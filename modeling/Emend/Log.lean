import Emend.Text.Basic

namespace Emend

inductive Level
  | debug
  | warning
deriving DecidableEq, Repr

def Level.name : Level → Text
  | debug => "DEBUG".toList
  | warning => "WARNING".toList

inductive Logger
  /-- The engine that edits one document. -/
  | document
  | commit
  /-- The application of a whole patch to a tree, the engine's work in it included. -/
  | files
deriving DecidableEq, Repr

def Logger.name : Logger → Text
  | document => "v4a.diff".toList
  | commit => "v4a.commit.core".toList
  | files => "v4a.commit.files".toList

structure Record where
  logger : Logger
  level : Level
  message : Text
deriving DecidableEq, Repr

def Record.debug (logger : Logger) (message : Text) : Record := ⟨logger, .debug, message⟩

inductive Sink
  | nowhere
  /-- To the logger that the caller hands over. -/
  | given
  /-- To a logger found by its name. -/
  | named (name : Text) (level : Int) (propagates : Bool)
deriving DecidableEq, Repr

namespace Sink

def defaultLevel : Int := 20

def defaultName : Text := "v4a".toList

/-- A logger that is handed over wins. Otherwise records are kept only where logging is enabled. -/
def choose (given enabled : Bool) (name : Option Text) (level : Option Int) : Sink :=
  if given then .given
  else if enabled then
    let name := Text.orEmpty name
    .named (if name = [] then defaultName else name) (level.getD defaultLevel) true
  else .nowhere

end Sink

end Emend
