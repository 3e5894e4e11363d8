import Mailbox.Text.Numeral
set_option autoImplicit false

/-!
# Arguments

The words of a command line and the command they stand for.  Options have a long name after two
dashes, or one letter after a single dash, where several letters may stand together.  Two dashes
alone end the options.  No option may be given twice.

Normative source: SPEC_FULL.md, section A4.

Scope: arguments that stand for no command are told apart from the others, and not from each other;
what is said about them is left out.
-/

namespace Mailbox

/-- How a program is to be run. -/
structure RunOptions where
  input : Option String
  minimal : Bool
  tracing : Bool
  limit : Option Nat
  deriving DecidableEq, Repr, Inhabited

/-- What the command line asks for. -/
inductive Command where
  | welcome
  | version
  | help
  | run (path : String) (options : RunOptions)
  | compile (path : String) (destination : Option String)
  | check (patterns : List String)
  | dump (path : String)
  | watch (path : String)
  deriving DecidableEq, Repr, Inhabited

/-- What ends the reading of arguments early. -/
inductive ArgumentStop where
  | usage
  | command (command : Command)
  deriving DecidableEq, Repr

namespace Arguments

/-- What may stand for the value of an option. -/
inductive ValueKind where
  | none
  | text
  | count
  deriving DecidableEq, Repr

/-- An option: its names, and what may be its value. -/
structure OptionName where
  long : String
  short : Char
  kind : ValueKind
  deriving DecidableEq, Repr

/-- Whether a value belongs to an option. -/
def OptionName.hasValue (o : OptionName) : Bool :=
  o.kind != .none

/-- The other arguments of a command: any texts, or paths up to a number. -/
inductive OtherKind where
  | texts
  | paths (most : Nat)
  deriving DecidableEq, Repr

/-- What the arguments of a command may be. -/
structure Form where
  options : List OptionName
  others : OtherKind
  deriving DecidableEq, Repr

/-- The arguments for running a program. -/
def runForm : Form where
  options := [⟨"input", 'i', .text⟩, ⟨"minimal", 'm', .none⟩, ⟨"trace", 't', .none⟩,
    ⟨"limit", 'l', .count⟩]
  others := .paths 1

/-- The arguments of a command: options with their values, and the other arguments. -/
structure Given where
  options : List (String × String)
  others : Array String
  deriving DecidableEq, Repr, Inhabited

namespace Given

/-- The arguments before any is read. -/
def empty : Given := ⟨[], #[]⟩

/-- Adds an option, which must be the first of its name and have a value of its kind. -/
def addOption (given : Given) (o : OptionName) (value : String) : Except ArgumentStop Given :=
  if (given.options.lookup o.long).isSome then .error .usage
  else if o.kind == .count && (Text.readCount? value.toList).isNone then .error .usage
  else .ok { given with options := (o.long, value) :: given.options }

/-- Adds an argument that is no option.  Paths are not empty. -/
def addOther (given : Given) (kind : OtherKind) (arg : String) : Except ArgumentStop Given :=
  match kind with
  | .texts => .ok { given with others := given.others.push arg }
  | .paths most =>
    if arg == "" || most ≤ given.others.size then .error .usage
    else .ok { given with others := given.others.push arg }

/-- The value of an option. -/
def value? (given : Given) (name : String) : Option String :=
  given.options.lookup name

end Given

/-- An argument that starts with a dash and goes on. -/
def isOption (arg : String) : Bool :=
  match arg.toList with
  | '-' :: _ :: _ => true
  | _ => false

/-- Reads the letters behind a single dash.  A letter whose option has a value takes the letters
after it, without an equals sign in front; where there are none, the option is handed back to wait
for the next argument. -/
def readLetters (form : Form) (given : Given) :
    List Char → Except ArgumentStop (Given × Option OptionName)
  | [] => .ok (given, none)
  | c :: cs =>
    if c = 'h' then .error (.command .help)
    else
      match form.options.find? (·.short == c) with
      | none => .error .usage
      | some o =>
        if o.hasValue then
          match cs with
          | [] => .ok (given, some o)
          | '=' :: value => (given.addOption o (String.ofList value)).map (·, none)
          | value => (given.addOption o (String.ofList value)).map (·, none)
        else
          match given.addOption o "" with
          | .ok given => readLetters form given cs
          | .error stop => .error stop

/-- Reads the text behind two dashes: a name and, after an equals sign, a value.  An option that
lacks its value is handed back to wait for the next argument. -/
def readLong (form : Form) (given : Given) (text : List Char) :
    Except ArgumentStop (Given × Option OptionName) :=
  let name := String.ofList (text.takeWhile (· != '='))
  let value? : Option String :=
    match text.dropWhile (· != '=') with
    | [] => none
    | _ :: value => some (String.ofList value)
  if name == "help" && value?.isNone then .error (.command .help)
  else
    match form.options.find? (·.long == name), value? with
    | none, _ => .error .usage
    | some o, none =>
      if o.hasValue then .ok (given, some o) else (given.addOption o "").map (·, none)
    | some o, some value =>
      if o.hasValue then (given.addOption o value).map (·, none) else .error .usage

/-- Reads one argument.  An option that lacks its value is handed back to wait for the next
argument. -/
def readOne (form : Form) (given : Given) (arg : String) :
    Except ArgumentStop (Given × Option OptionName) :=
  match arg.toList with
  | '-' :: '-' :: text => readLong form given text
  | '-' :: c :: cs => readLetters form given (c :: cs)
  | _ => (given.addOther form.others arg).map (·, none)

/-- Reads the arguments of a command in order.  Each is judged as it comes, so a wrong one counts
before a request for help behind it. -/
def read (form : Form) (given : Given) : List String → Except ArgumentStop Given
  | [] => .ok given
  | arg :: args =>
    if arg == "--" then args.foldlM (·.addOther form.others ·) given
    else
      match readOne form given arg with
      | .error stop => .error stop
      | .ok (given, none) => read form given args
      | .ok (given, some o) =>
        match args with
        | [] => .error .usage
        | value :: args =>
          if isOption value then .error .usage
          else
            match given.addOption o value with
            | .error stop => .error stop
            | .ok given => read form given args

/-- The command of the arguments behind `run`. -/
def readRun (args : List String) : Except ArgumentStop Command := do
  let given ← read runForm .empty args
  match given.others.toList with
  | [path] =>
    return .run path
      { input := given.value? "input"
        minimal := (given.value? "minimal").isSome
        tracing := (given.value? "trace").isSome
        limit := (given.value? "limit").bind (Text.readCount? ·.toList) }
  | _ => .error .usage

/-- The command of the arguments behind `compile`. -/
def readCompile (args : List String) : Except ArgumentStop Command := do
  let given ← read ⟨[], .paths 2⟩ .empty args
  match given.others.toList with
  | [path] => return .compile path none
  | [path, destination] => return .compile path (some destination)
  | _ => .error .usage

/-- The command of the arguments behind `check`. -/
def readCheck (args : List String) : Except ArgumentStop Command := do
  let given ← read ⟨[], .texts⟩ .empty args
  if given.others.isEmpty then .error .usage else .ok (.check given.others.toList)

/-- The command of arguments that have to be a single path. -/
def readPath (command : String → Command) (args : List String) :
    Except ArgumentStop Command := do
  let given ← read ⟨[], .paths 1⟩ .empty args
  match given.others.toList with
  | [path] => return command path
  | _ => .error .usage

/-- The names of all commands. -/
def commandNames : List String :=
  ["run", "compile", "check", "dump", "watch", "help"]

/-- The command of the arguments behind `help`: the name of one command at most. -/
def readHelp (args : List String) : Except ArgumentStop Command :=
  match args with
  | [] => .ok .help
  | [name] => if commandNames.contains name then .ok .help else .error .usage
  | _ :: _ :: _ => .error .usage

/-- The command that a name and the arguments behind it stand for, if it is the name of one. -/
def named? (name : String) (args : List String) : Option (Except ArgumentStop Command) :=
  match name with
  | "run" => some (readRun args)
  | "compile" => some (readCompile args)
  | "check" => some (readCheck args)
  | "dump" => some (readPath .dump args)
  | "watch" => some (readPath .watch args)
  | "help" => some (readHelp args)
  | _ => none

/-- The command without a name: to run the program at a path, if there is a path. -/
def unnamed (path : Option String) : Command :=
  match path with
  | some path => .run path ⟨none, false, false, none⟩
  | none => .welcome

/-- Reads a whole command line.  A path may stand before the name of a command, where it counts
for nothing. -/
def readAll (path : Option String) : List String → Except ArgumentStop Command
  | [] => .ok (unnamed path)
  | arg :: args =>
    match named? arg args with
    | some command => command
    | none =>
      match arg.toList with
      | ['-', '-'] =>
        match path.toList ++ args with
        | [] => .ok (unnamed none)
        | [path] => if path == "" then .error .usage else .ok (unnamed (some path))
        | _ => .error .usage
      | '-' :: 'V' :: _ => .error (.command .version)
      | '-' :: 'h' :: _ => .error (.command .help)
      | '-' :: _ :: _ =>
        if arg == "--version" then .error (.command .version)
        else if arg == "--help" then .error (.command .help)
        else .error .usage
      | _ =>
        if path.isSome || arg == "" then .error .usage else readAll (some arg) args

end Arguments

/-- The command that arguments stand for, if they stand for one. -/
def Command.ofArguments? (args : List String) : Option Command :=
  match Arguments.readAll none args with
  | .ok command => some command
  | .error (.command command) => some command
  | .error .usage => none

end Mailbox
