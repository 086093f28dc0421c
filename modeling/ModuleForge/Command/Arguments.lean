import ModuleForge.Text.Split

/-!
# Command line arguments

`Invocation.parse` reads what the program is asked to do. Options may stand before and behind the
command, long ones as `--name value` or `--name=value` and short ones as `-n value`, `-nvalue` or
`-n=value`; short switches can be joined. Behind `--` nothing is an option. No option is given twice on
the same side of the command, and behind the command it counts more.
-/

namespace ModuleForge

namespace Command

/-! ## Options -/

/-- What an option takes. -/
inductive Argument where
  | nothing
  /-- A text that is not empty. -/
  | path
  | text
  /-- A number of 64 bits. -/
  | count
  deriving DecidableEq, Repr, Inhabited

/-- An option. -/
structure OptionSpec where
  long : String
  short : Option Char := none
  argument : Argument := .nothing
  deriving DecidableEq, Repr, Inhabited

/-- Why the arguments ask for nothing that can be run. -/
inductive Stop where
  | usage
  | help
  | version
  deriving DecidableEq, Repr, Inhabited

/-- An option that was given, by its long name, with its argument. -/
abbrev Given := List (String × String)

/-- The number that digits denote, perhaps behind a plus sign. -/
def countOf? (s : String) : Option Nat :=
  let digits := match s.toList with
    | '+' :: rest => rest
    | cs => cs
  let n := digits.foldl (fun n c => n * 10 + (c.toNat - '0'.toNat)) 0
  if digits.isEmpty || !digits.all Char.isDigit || Nat.pow 2 64 ≤ n then none else some n

/-- An argument that an option accepts. -/
def Argument.accepts (a : Argument) (value : String) : Bool :=
  match a with
  | .nothing => false
  | .path => !value.isEmpty
  | .text => true
  | .count => (countOf? value).isSome

/-- Takes note of an option; twice is once too often. -/
def note (given : Given) (o : OptionSpec) (value : String) : Except Stop Given :=
  if given.any (·.1 == o.long) then .error .usage
  else if o.argument = .nothing || o.argument.accepts value then .ok (given ++ [(o.long, value)])
  else .error .usage

/-- What is left to do after some arguments: nothing, or an option waits for its argument. -/
inductive Pending where
  | done (given : Given)
  | awaits (option : OptionSpec) (given : Given)

/-- Reads `--name` or `--name=value`, without the hyphens. -/
def readLong (specs : List OptionSpec) (given : Given) (cs : List Char) : Except Stop Pending := do
  let (name, value) := match Text.splitOnce? ['='] cs with
    | some (name, value) => (name, some value)
    | none => (cs, none)
  match specs.find? (·.long == String.ofList name) with
  | none => .error .usage
  | some o =>
    match o.argument, value with
    | .nothing, none =>
      if o.long == "help" then .error .help
      else if o.long == "version" then .error .version
      else return .done (← note given o "")
    | .nothing, some _ => .error .usage
    | _, some value => return .done (← note given o (String.ofList value))
    | _, none => return .awaits o given

/-- Reads joined short options, without the hyphen. -/
def readShort (specs : List OptionSpec) (given : Given) : List Char → Except Stop Pending
  | [] => .ok (.done given)
  | c :: rest =>
    match specs.find? (·.short == some c) with
    | none => .error .usage
    | some o =>
      match o.argument, rest with
      | .nothing, _ =>
        if o.long == "help" then .error .help
        else if o.long == "version" then .error .version
        else
          match note given o "" with
          | .error stop => .error stop
          | .ok given => readShort specs given rest
      | _, [] => .ok (.awaits o given)
      | _, '=' :: value => (note given o (String.ofList value)).map .done
      | _, value => (note given o (String.ofList value)).map .done

/-- An argument that looks like an option. -/
def isOptionLike (arg : String) : Bool :=
  match arg.toList with
  | '-' :: _ :: _ => true
  | _ => false

/-- Reads one argument that looks like an option. -/
def readOption (specs : List OptionSpec) (given : Given) (arg : String) : Except Stop Pending :=
  match arg.toList with
  | '-' :: '-' :: name => readLong specs given name
  | '-' :: letters => readShort specs given letters
  | _ => .error .usage

/-- What arguments say on one side of the command: options, other arguments, and from the first of
those on what is not read if `onlyOptions` is set. -/
structure Side where
  given : Given := []
  operands : List String := []
  rest : List String := []

/-- Reads the arguments on one side of the command. -/
def readSide (specs : List OptionSpec) (onlyOptions : Bool) : Side → List String → Except Stop Side
  | side, [] => .ok side
  | side, arg :: rest =>
    if arg = "--" then
      if onlyOptions then .error .usage
      else .ok { side with operands := side.operands ++ rest }
    else if isOptionLike arg then
      match readOption specs side.given arg with
      | .error stop => .error stop
      | .ok (.done given) => readSide specs onlyOptions { side with given } rest
      | .ok (.awaits o given) =>
        match rest with
        | [] => .error .usage
        | value :: rest =>
          if isOptionLike value then .error .usage
          else
            match note given o value with
            | .error stop => .error stop
            | .ok given => readSide specs onlyOptions { side with given } rest
    else if onlyOptions then .ok { side with rest := arg :: rest }
    else readSide specs onlyOptions { side with operands := side.operands ++ [arg] } rest

end Command

/-! ## Commands -/

/-- What the program can do. -/
inductive Command where
  /-- Shows the tokens of a file. -/
  | lex (input : String) (positions : Bool)
  /-- Shows the statements of a file. -/
  | parse (input : String)
  /-- Shows a module in CommonJS form. -/
  | rewrite (input : String)
  /-- Transpiles one file. -/
  | transpile (input : String) (dependency simpleRequire : Bool)
  /-- Fetches the packages that a description asks for. -/
  | fetch (description : String) (out : Option String)
  /-- Builds a project. -/
  | build (project : String) (out entry : Option String)
  deriving DecidableEq, Repr, Inhabited

/-- A command, and the options that all commands have. -/
structure Invocation where
  config : Option String := none
  workers : Option Nat := none
  verbose : Bool := false
  command : Command
  deriving DecidableEq, Repr, Inhabited

namespace Command

/-- The options of all commands. -/
def commonOptions : List OptionSpec :=
  [{ long := "config", argument := .path },
    { long := "workers", short := some 'j', argument := .count },
    { long := "verbose", short := some 'v' },
    { long := "help", short := some 'h' }]

/-- The options before the command. -/
def topOptions : List OptionSpec := commonOptions ++ [{ long := "version", short := some 'V' }]

/-- The options of a command; `none` if there is no such command. -/
def optionsOf? (name : String) : Option (List OptionSpec) :=
  let out : OptionSpec := { long := "out", short := some 'o', argument := .path }
  match name with
  | "lex" => some [{ long := "positions", short := some 'p' }]
  | "parse" => some []
  | "rewrite" => some []
  | "transpile" => some [{ long := "dependency" }, { long := "simple-require" }]
  | "fetch" => some [out]
  | "build" => some [out, { long := "entry", argument := .text }]
  | _ => none

/-- The command of a name with its options and its operand. -/
def ofGiven? (name operand : String) (given : Given) : Option Command :=
  let isGiven (option : String) : Bool := given.any (·.1 == option)
  match name with
  | "lex" => some (.lex operand (isGiven "positions"))
  | "parse" => some (.parse operand)
  | "rewrite" => some (.rewrite operand)
  | "transpile" => some (.transpile operand (isGiven "dependency") (isGiven "simple-require"))
  | "fetch" => some (.fetch operand (given.lookup "out"))
  | "build" => some (.build operand (given.lookup "out") (given.lookup "entry"))
  | _ => none

end Command

open Command in
/-- **What the arguments ask for.** -/
def Invocation.parse (args : List String) : Except Stop Invocation := do
  let top ← readSide topOptions true {} args
  match top.rest with
  | [] => .error .usage
  | name :: rest =>
    if name = "help" then .error .help
    else
      match optionsOf? name with
      | none => .error .usage
      | some options =>
        let side ← readSide (commonOptions ++ options) false {} rest
        let given := side.given ++ top.given
        match side.operands with
        | [operand] =>
          match ofGiven? name operand given with
          | some command =>
            if operand.isEmpty then .error .usage
            else
              .ok { config := given.lookup "config"
                    workers := (given.lookup "workers").bind countOf?
                    verbose := given.any (·.1 == "verbose")
                    command }
          | none => .error .usage
        | _ => .error .usage

end ModuleForge
