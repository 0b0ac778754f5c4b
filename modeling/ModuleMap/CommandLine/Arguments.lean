import ModuleMap.Path.Basic

/-!
# Arguments

Options are read on two levels: before the name of a command and after it.  An option may be given
once on each level, except for the verbosity flag, which counts.

* `Level`: the options and operands given on one level.
* `Level.readCluster`, `Level.readLong`, `Level.read`: reading them.
* `Invocation.parse`: the command that arguments ask for.
-/

namespace ModuleMap

/-- What can be wrong with arguments. -/
inductive UsageError where
  /-- There is no such option. -/
  | unknownOption
  /-- There is no such command. -/
  | unknownCommand
  /-- An option lacks its value. -/
  | missingValue
  /-- A flag is given a value. -/
  | unexpectedValue
  /-- An option is given twice on one level. -/
  | repeated
  /-- A path is empty. -/
  | emptyPath
  /-- A command lacks an operand. -/
  | missingOperand
  /-- A command is given an operand too many. -/
  | extraOperand
  deriving DecidableEq, Repr

/-- The text of the error. -/
def UsageError.message : UsageError → String
  | unknownOption => "unknown option"
  | unknownCommand => "unknown command"
  | missingValue => "an option lacks its value"
  | unexpectedValue => "a flag takes no value"
  | repeated => "an option is given twice"
  | emptyPath => "a path is empty"
  | missingOperand => "an operand is missing"
  | extraOperand => "an operand too many"

/-- The names of the commands. -/
inductive CommandName where
  | version
  | map
  | classify
  | scope
  deriving DecidableEq, Repr

/-- The command of a name. -/
def CommandName.ofText? : String → Option CommandName
  | "version" => some .version
  | "map" => some .map
  | "classify" => some .classify
  | "scope" => some .scope
  | _ => none

/-- The options that take a value. -/
inductive ValueOption where
  | cwd
  | project
  deriving DecidableEq, Repr

/-- The options and operands given on one level. -/
structure Level where
  verbosity : Nat := 0
  json : Bool := false
  packageScope : Bool := false
  cwd : Option Path := none
  project : Option Path := none
  /-- The operands, last one first. -/
  operands : List String := []
  deriving DecidableEq, Repr

/-- How far the options of an argument lead. -/
inductive Progress where
  /-- On to the next argument; a value may be awaited in it. -/
  | next (level : Level) (awaited : Option ValueOption)
  /-- The version is asked for, whatever else follows. -/
  | version
  deriving DecidableEq, Repr

/-- A path given as a value. -/
def pathValue (value : String) : Except UsageError Path :=
  if value = "" then .error .emptyPath else .ok (.ofText value)

namespace Level

/-- The level with the value of an option. -/
def give (l : Level) (option : ValueOption) (value : String) : Except UsageError Level := do
  let path ← pathValue value
  match option with
  | .cwd => if l.cwd.isSome then .error .repeated else .ok { l with cwd := some path }
  | .project => if l.project.isSome then .error .repeated else .ok { l with project := some path }

/-- The options of an argument that begins with one dash, after the dash.  `command` is the command
whose level it is. -/
def readCluster (command : Option CommandName) (l : Level) :
    List Char → Except UsageError Progress
  | [] => .ok (.next l none)
  | c :: cs =>
    if c = 'v' then readCluster command { l with verbosity := l.verbosity + 1 } cs
    else if c = 'V' ∧ command = none then .ok .version
    else if c = 'p' then
      match cs with
      | [] => .ok (.next l (some .project))
      | '=' :: value => do return .next (← l.give .project (String.ofList value)) none
      | value => do return .next (← l.give .project (String.ofList value)) none
    else .error .unknownOption

/-- A text cut at its first `=`. -/
def cutAtEquals : List Char → List Char × Option (List Char)
  | [] => ([], none)
  | c :: cs =>
    if c = '=' then ([], some cs)
    else (c :: (cutAtEquals cs).1, (cutAtEquals cs).2)

/-- The options of an argument that begins with two dashes, after the dashes. -/
def readLong (command : Option CommandName) (l : Level) (text : List Char) :
    Except UsageError Progress :=
  let (name, value) := cutAtEquals text
  let flag (given : Bool) (l : Level) : Except UsageError Progress :=
    if value.isSome then .error .unexpectedValue
    else if given then .error .repeated
    else .ok (.next l none)
  let valued (option : ValueOption) : Except UsageError Progress :=
    match value with
    | some value => do return .next (← l.give option (String.ofList value)) none
    | none => .ok (.next l (some option))
  match String.ofList name with
  | "verbose" => flag false { l with verbosity := l.verbosity + 1 }
  | "json" => flag l.json { l with json := true }
  | "cwd" => valued .cwd
  | "project" => valued .project
  | "package-scope" =>
    if command = some .classify then flag l.packageScope { l with packageScope := true }
    else .error .unknownOption
  | "version" =>
    if command = none then
      if value.isSome then .error .unexpectedValue else .ok .version
    else .error .unknownOption
  | _ => .error .unknownOption

/-- What the arguments of a level lead to. -/
inductive Outcome where
  /-- All arguments are read. -/
  | complete (level : Level)
  /-- A command is named; the arguments after it are left. -/
  | named (level : Level) (command : CommandName) (rest : List String)
  /-- The version is asked for. -/
  | version
  deriving DecidableEq, Repr

/-- The level with an operand.  Before the name of a command there are no operands. -/
def operand (command : Option CommandName) (l : Level) (text : String) : Except UsageError Level :=
  match command with
  | none => .error .unknownCommand
  | some _ => .ok { l with operands := text :: l.operands }

/-- The arguments of a level.  A dash alone is an operand or a value, and after two dashes alone all
is operands. -/
def read (command : Option CommandName) :
    Level → Option ValueOption → List String → Except UsageError Outcome
  | l, none, [] => .ok (.complete l)
  | _, some _, [] => .error .missingValue
  | l, awaited, arg :: args =>
    let options (progress : Except UsageError Progress) : Except UsageError Outcome :=
      if awaited.isSome then .error .missingValue
      else
        match progress with
        | .error e => .error e
        | .ok .version => .ok .version
        | .ok (.next l awaited) => read command l awaited args
    match arg.toList with
    | ['-', '-'] =>
      if awaited.isSome then .error .missingValue
      else do return .complete (← args.foldlM (operand command) l)
    | '-' :: '-' :: text => options (readLong command l text)
    | '-' :: c :: text => options (readCluster command l (c :: text))
    | _ =>
      match awaited with
      | some option => do read command (← l.give option arg) none args
      | none =>
        match command, CommandName.ofText? arg with
        | none, some name => .ok (.named l name args)
        | _, _ => do read command (← operand command l arg) none args

end Level

/-- A command with its operands. -/
inductive Command where
  | version
  | map (specifiers : List String)
  | classify (files : List Path) (packageScope : Bool)
  | scope (file : Path)
  deriving DecidableEq, Repr

/-- The command of a level of arguments. -/
def Command.ofLevel (name : CommandName) (l : Level) : Except UsageError Command :=
  match name, l.operands.reverse with
  | .version, [] => .ok .version
  | .version, _ :: _ => .error .extraOperand
  | .map, [] | .classify, [] | .scope, [] => .error .missingOperand
  | .map, specifiers => .ok (.map specifiers)
  | .classify, files => do return .classify (← files.mapM pathValue) l.packageScope
  | .scope, [file] => do return .scope (← pathValue file)
  | .scope, _ => .error .extraOperand

/-- What arguments ask for. -/
structure Invocation where
  command : Command
  json : Bool := false
  verbosity : Nat := 0
  cwd : Option Path := none
  project : Option Path := none
  deriving DecidableEq, Repr

namespace Invocation

/-- The project that the environment names, as far as a level does not name one itself. -/
def fromEnvironment (environment : Option String) (l : Level) : Except UsageError (Option Path) :=
  match l.project, environment with
  | none, some value => do return some (← pathValue value)
  | _, _ => .ok none

/-- The command that arguments ask for.  Without a name it is the version.  What is given after the
name counts before what is given in front of it, and both before the environment. -/
def parse (environment : Option String) (args : List String) : Except UsageError Invocation := do
  match ← Level.read none {} none args with
  | .version => return { command := .version }
  | .complete outer =>
    let named ← fromEnvironment environment outer
    return { command := .version, json := outer.json, verbosity := outer.verbosity,
             cwd := outer.cwd, project := outer.project.or named }
  | .named outer name rest =>
    match ← Level.read (some name) {} none rest with
    | .version | .named _ _ _ => .error .unknownCommand
    | .complete inner =>
      let command ← Command.ofLevel name inner
      let named ← fromEnvironment environment inner
      let _ ← fromEnvironment environment outer
      return { command, json := inner.json || outer.json,
               verbosity := if inner.verbosity = 0 then outer.verbosity else inner.verbosity,
               cwd := inner.cwd.or outer.cwd,
               project := (inner.project.or outer.project).or named }

end Invocation

end ModuleMap
