import ModuleMap.Command.Classify
import ModuleMap.Command.Map
import ModuleMap.Command.Scope
import ModuleMap.Command.Version
import ModuleMap.CommandLine.Arguments

/-!
# Running a command line

* `Command.run`: what a command prints with the given settings.
* `Outcome`, `runArguments`: what a command line leads to.
-/

namespace ModuleMap

/-- What a command prints with the given settings.  A command whose config cannot be loaded to an
end prints nothing and does not fail. -/
def Command.run (c : Command) (s : Settings) (t : FileTree) (json : Bool) : Option Printed :=
  match c with
  | version => some (versionReport json)
  | map specifiers => s.map t specifiers json
  | classify files packageScope => s.classify t files packageScope json
  | scope file => some (s.scope t file json)

/-- The settings of an invocation. -/
def Invocation.settings (i : Invocation) (t : FileTree) : Settings :=
  { cwd := i.cwd.getD t.cwd, jsonLogs := i.json, verbosity := min i.verbosity 255
    : Settings }.withProject i.project

/-- What a command line leads to. -/
inductive Outcome where
  /-- The command printed this. -/
  | printed (text : String)
  /-- The command failed. -/
  | failed (report : Report)
  /-- The arguments are wrong. -/
  | misused (cause : UsageError)
  deriving DecidableEq, Repr

namespace Outcome

/-- The exit code. -/
def exitCode : Outcome → Nat
  | printed _ => 0
  | failed _ => 1
  | misused _ => 2

/-- The text on standard output. -/
def output : Outcome → String
  | printed text => text
  | failed _ | misused _ => ""

end Outcome

/-- What a command line leads to in a tree, where the environment may name a project; nothing if the
command comes to no end. -/
def runArguments (t : FileTree) (environment : Option String) (args : List String) :
    Option Outcome :=
  match Invocation.parse environment args with
  | .error cause => some (.misused cause)
  | .ok i => (i.command.run (i.settings t) t i.json).map fun
    | .ok text => .printed text
    | .error report => .failed report

end ModuleMap
