import JuliaReleases.Text.Basic

/-!
# Command-line arguments

The arguments name one of four commands and give it what it needs: at most one argument of its own,
by position, and options. An option is a switch, or it takes a value, either behind a sign of
equality or as the next argument. `JuliaReleases.CommandLine.read` turns the arguments into a
`JuliaReleases.Command`, or says in which way they are no use.

The rules that decide the odd cases:

* arguments are read from left to right, and the first that is wrong is reported; what is missing is
  noticed at the end;
* an argument that starts with a hyphen is an option, unless it is a lone hyphen or follows a double
  hyphen, and it is never taken for the value of the option before it;
* nothing may be given twice, and a path must not be empty;
* `--verbose` may stand before the command, and everything else that a command takes behind it.
-/

namespace JuliaReleases

/-- What the program is asked to do. -/
inductive Command where
  /-- Resolve a request to one version. -/
  | resolve (request : Text) (releases project config : Option Text) (includePrerelease : Bool)
  /-- Translate a compat specifier into the range notation, or into plain bounds. -/
  | translate (specifier : Text) (desugar : Bool)
  /-- Show the compat range of a project. -/
  | compat (project : Option Text)
  /-- Show the binary and the address of a version. -/
  | downloadInfo (version releases os arch : Text)
  /-- Show how the program is used. -/
  | help
  /-- Show the version of the program. -/
  | version
deriving DecidableEq

/-- Why the arguments are no use. -/
inductive UsageError where
  | noCommand
  | unknownCommand (name : Text)
  | unknownOption (argument : Text)
  | extraArgument (argument : Text)
  | repeatedOption (name : Text)
  | missingValue (name : Text)
  | unexpectedValue (name : Text)
  /-- An argument or an option that the command cannot do without. -/
  | required (name : Text)
deriving DecidableEq

/-- The wording of the error. -/
def UsageError.message : UsageError → Text
  | noCommand => "a command is required".toList
  | unknownCommand name => "unknown command ".toList ++ Text.quoted name
  | unknownOption argument => "unknown option ".toList ++ Text.quoted argument
  | extraArgument argument => "unexpected argument ".toList ++ Text.quoted argument
  | repeatedOption name => "option --".toList ++ name ++ " is given twice".toList
  | missingValue name => "option --".toList ++ name ++ " needs a value".toList
  | unexpectedValue name => "option --".toList ++ name ++ " takes no value".toList
  | required name => name ++ " is required".toList

namespace CommandLine

/-- What an option takes. -/
inductive OptionKind where
  | switch
  | text
  /-- A path, which must not be empty. -/
  | path
deriving DecidableEq

/-- A command as far as its arguments go. -/
structure Shape where
  name : Text
  /-- What the command calls its argument by position, if it takes one. -/
  argument : Option Text
  options : List (Text × OptionKind)

/-- What has been given to a command. -/
structure Given where
  argument : Option Text := none
  /-- The options with their values; that of a switch is empty. -/
  options : List (Text × Text) := []
deriving DecidableEq

/-- How reading the arguments of a command ends. -/
inductive Reading where
  | given (g : Given)
  | help
deriving DecidableEq

/-! ### Reading the arguments of a command -/

/-- The option that is understood before and behind every command. -/
def verbose : Text :=
  "verbose".toList

/-- Whether an argument is read as an option. -/
def isOption (argument : Text) : Bool :=
  match argument with
  | '-' :: _ :: _ => true
  | _ => false

/-- Takes an argument by position. -/
def Given.addArgument (shape : Shape) (g : Given) (argument : Text) : Except UsageError Given :=
  if shape.argument.isSome ∧ g.argument = none then .ok { g with argument := some argument }
  else .error (.extraArgument argument)

/-- Takes arguments by position, whatever they look like. -/
def Given.addArguments (shape : Shape) (g : Given) (arguments : List Text) :
    Except UsageError Given :=
  arguments.foldlM (Given.addArgument shape) g

/-- Takes an option with its value. -/
def Given.addOption (g : Given) (name : Text) (kind : OptionKind) (value : Text) :
    Except UsageError Given :=
  if kind = .path ∧ value = [] then .error (.missingValue name)
  else if (g.options.lookup name).isSome then .error (.repeatedOption name)
  else .ok { g with options := g.options ++ [(name, value)] }

/-- Takes switches that are written as single letters behind one hyphen. There is nothing when the
letter for help is among them. -/
def Given.addLetters (argument : Text) (g : Given) : Text → Except UsageError (Option Given)
  | [] => .ok (some g)
  | 'h' :: _ => .ok none
  | 'v' :: letters => do
    let g ← g.addOption verbose .switch []
    g.addLetters argument letters
  | _ :: _ => .error (.unknownOption argument)

/-- Reads the arguments behind the name of a command. -/
def readArguments (shape : Shape) (g : Given) : List Text → Except UsageError Reading
  | [] => .ok (.given g)
  | argument :: arguments =>
    if argument = "--".toList then .given <$> g.addArguments shape arguments
    else
      match Text.dropPrefix? "--".toList argument with
      | some long =>
        let (name, value) := Text.cut '=' long
        if name = "help".toList then
          if value.isSome then .error (.unexpectedValue name) else .ok .help
        else
          match shape.options.lookup name, value with
          | none, _ => .error (.unknownOption argument)
          | some .switch, some _ => .error (.unexpectedValue name)
          | some .switch, none => do
            readArguments shape (← g.addOption name .switch []) arguments
          | some kind, some value => do
            readArguments shape (← g.addOption name kind value) arguments
          | some kind, none =>
            match arguments with
            | [] => .error (.missingValue name)
            | value :: arguments =>
              if isOption value then .error (.missingValue name)
              else do readArguments shape (← g.addOption name kind value) arguments
      | none =>
        if isOption argument then do
          match ← g.addLetters argument (argument.drop 1) with
          | some g => readArguments shape g arguments
          | none => return .help
        else do readArguments shape (← g.addArgument shape argument) arguments

/-! ### Commands -/

/-- The value of an option, if it is given. -/
def Given.value? (g : Given) (name : String) : Option Text :=
  g.options.lookup name.toList

/-- Whether an option is given. -/
def Given.has (g : Given) (name : String) : Bool :=
  (g.value? name).isSome

/-- The value of an option that has to be given. -/
def Given.require (g : Given) (name : String) : Except UsageError Text :=
  match g.value? name with
  | some value => .ok value
  | none => .error (.required ("--" ++ name).toList)

/-- The argument by position, which has to be given. -/
def Given.requireArgument (shape : Shape) (g : Given) : Except UsageError Text :=
  match g.argument with
  | some argument => .ok argument
  | none => .error (.required (shape.argument.getD []))

/-- A command with the name and the options given, besides those that all commands take. -/
def shapeOf (name : String) (argument : Option String) (options : List (String × OptionKind)) :
    Shape where
  name := name.toList
  argument := argument.map String.toList
  options := options.map (fun (name, kind) => (name.toList, kind)) ++ [(verbose, .switch)]

/-- What `resolve` takes. -/
def resolveShape : Shape :=
  shapeOf "resolve" "VERSION"
    [("releases", .path), ("include-prerelease", .switch), ("project", .path), ("config", .path)]

/-- What `translate` takes. -/
def translateShape : Shape :=
  shapeOf "translate" "RANGE" [("desugar", .switch)]

/-- What `compat` takes. -/
def compatShape : Shape :=
  shapeOf "compat" none [("project", .path)]

/-- What `download-info` takes. -/
def downloadInfoShape : Shape :=
  shapeOf "download-info" "VERSION" [("releases", .path), ("os", .text), ("arch", .text)]

/-- The commands, and how each is made of what is given to it. -/
def commands : List (Shape × (Given → Except UsageError Command)) :=
  [(resolveShape, fun g => do
      let request ← g.requireArgument resolveShape
      return .resolve request (g.value? "releases") (g.value? "project") (g.value? "config")
        (g.has "include-prerelease")),
    (translateShape, fun g => do
      return .translate (← g.requireArgument translateShape) (g.has "desugar")),
    (compatShape, fun g => return .compat (g.value? "project")),
    (downloadInfoShape, fun g => do
      let version ← g.requireArgument downloadInfoShape
      return .downloadInfo version (← g.require "releases") (← g.require "os")
        (← g.require "arch"))]

/-- Reads the name of a command and what follows it. -/
def readCommand (name : Text) (arguments : List Text) : Except UsageError Command :=
  match commands.find? (·.1.name = name) with
  | some (shape, make) => do
    match ← readArguments shape {} arguments with
    | .given g => make g
    | .help => return .help
  | none =>
    if name = "help".toList then
      match arguments with
      | [] => .ok .help
      | [name] =>
        if commands.any (·.1.name = name) ∨ name = "help".toList then .ok .help
        else .error (.unknownCommand name)
      | _ :: argument :: _ => .error (.extraArgument argument)
    else .error (.unknownCommand name)

/-- The switches before a command that are written as single letters: whether to go on, or what they
ask for. -/
def readLetters (argument : Text) (g : Given) : Text → Except UsageError (Given ⊕ Command)
  | [] => .ok (.inl g)
  | 'h' :: _ => .ok (.inr .help)
  | 'V' :: _ => .ok (.inr .version)
  | 'v' :: letters => do
    let g ← g.addOption verbose .switch []
    readLetters argument g letters
  | _ :: _ => .error (.unknownOption argument)

/-- Reads the arguments, given the options read before the command so far. -/
def readFrom (g : Given) : List Text → Except UsageError Command
  | [] => .error .noCommand
  | argument :: arguments =>
    if argument = "--version".toList then .ok .version
    else if argument = "--help".toList then .ok .help
    else if argument = "--verbose".toList then do
      readFrom (← g.addOption verbose .switch []) arguments
    else if argument = "--".toList then
      match arguments with
      | [] => .error .noCommand
      | argument :: _ => .error (.extraArgument argument)
    else if "--".toList.isPrefixOf argument then .error (.unknownOption argument)
    else if isOption argument then do
      match ← readLetters argument g (argument.drop 1) with
      | .inl g => readFrom g arguments
      | .inr command => return command
    else readCommand argument arguments

/-- **Reads the command-line arguments.** -/
def read (arguments : List Text) : Except UsageError Command :=
  readFrom {} arguments

end CommandLine

end JuliaReleases
