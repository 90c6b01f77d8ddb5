/-!
# Arguments

What the arguments of the program ask for. An option has a long name behind two dashes or a letter
behind one; letters can share a dash, and a value stands behind the name or in the next argument.
Arguments are settled from left to right, so a request for help or for the version counts if nothing
before it is wrong.
-/

namespace RelaxSchema.CommandLine

/-! ### Parameters -/

/-- The options of the program. -/
inductive Parameter where
  /-- Tight limits. -/
  | strict
  /-- A directory to search for grammars. -/
  | searchDirectory
  /-- The file to write to. -/
  | output
  /-- Whether issues are reported. -/
  | issues
  /-- The schema to validate against. -/
  | schema
  /-- The element to show. -/
  | element
  /-- Whether the answer is JSON. -/
  | json
  /-- The request for the version. -/
  | version
  /-- The request for help. -/
  | help
  deriving DecidableEq, Repr

namespace Parameter

/-- The long name. -/
def long : Parameter → String
  | strict => "strict"
  | searchDirectory => "search-dir"
  | output => "output"
  | issues => "issues"
  | schema => "schema"
  | element => "element"
  | json => "json"
  | version => "version"
  | help => "help"

/-- The letter. -/
def letter? : Parameter → Option Char
  | strict => none
  | searchDirectory => some 'I'
  | output => some 'o'
  | issues => none
  | schema => some 's'
  | element => some 'e'
  | json => some 'j'
  | version => some 'V'
  | help => some 'h'

/-- Whether the option has a value. -/
def hasValue : Parameter → Bool
  | searchDirectory => true
  | output => true
  | schema => true
  | element => true
  | strict => false
  | issues => false
  | json => false
  | version => false
  | help => false

/-- Whether a value may be given to the option. Paths are not empty. -/
def admits (parameter : Parameter) (value : String) : Bool :=
  match parameter with
  | searchDirectory => !value.isEmpty
  | output => !value.isEmpty
  | schema => !value.isEmpty
  | _ => true

/-- Whether the option ends the reading of arguments. -/
def isFinal (parameter : Parameter) : Bool := parameter = version || parameter = help

end Parameter

/-! ### Settings -/

/-- What some arguments have settled. -/
structure Settings where
  /-- The options with their values; those without a value have the empty one. -/
  options : List (Parameter × String) := []
  /-- The argument that is no option. -/
  operand : Option String := none
  deriving Repr

namespace Settings

/-- The values of an option. -/
def values (settings : Settings) (parameter : Parameter) : List String :=
  (settings.options.filter fun option => option.1 = parameter).map Prod.snd

/-- The value of an option. -/
def value? (settings : Settings) (parameter : Parameter) : Option String :=
  (settings.values parameter).head?

/-- Whether an option is given. -/
def has (settings : Settings) (parameter : Parameter) : Bool := (settings.value? parameter).isSome

/-- Settles an option, which must not be settled yet unless it can have many values. -/
def set? (settings : Settings) (parameter : Parameter) (value : String) : Option Settings :=
  if parameter.admits value && (parameter = .searchDirectory || !settings.has parameter) then
    some { settings with options := settings.options ++ [(parameter, value)] }
  else none

/-- Settles the operand, of which there is one, a path. -/
def setOperand? (settings : Settings) (operand : String) : Option Settings :=
  if settings.operand.isNone && !operand.isEmpty then
    some { settings with operand := some operand }
  else none

end Settings

/-! ### Single arguments -/

/-- What comes of an argument. -/
inductive Progress where
  /-- It is settled. -/
  | settled (settings : Settings)
  /-- It wants the next argument as a value. -/
  | wants (parameter : Parameter) (settings : Settings)
  /-- It ends the reading of arguments. -/
  | final (parameter : Parameter)
  deriving Repr

/-- Settles an option that has no value. -/
def settleFlag? (settings : Settings) (parameter : Parameter) : Option Progress :=
  if parameter.isFinal then some (.final parameter)
  else (settings.set? parameter "").map .settled

/-- Settles a long option, given what is written behind the dashes. -/
def settleLong? (known : List Parameter) (settings : Settings) (text : List Char) :
    Option Progress := do
  let name := String.ofList (text.takeWhile (· ≠ '='))
  let parameter ← known.find? fun parameter => parameter.long = name
  match text.dropWhile (· ≠ '='), parameter.hasValue with
  | [], false => settleFlag? settings parameter
  | [], true => some (.wants parameter settings)
  | _ :: _, false => none
  | _ :: value, true => (settings.set? parameter (String.ofList value)).map .settled

/-- Settles letters that share a dash. -/
def settleLetters? (known : List Parameter) (settings : Settings) : List Char → Option Progress
  | [] => some (.settled settings)
  | letter :: rest => do
    let parameter ← known.find? fun parameter => parameter.letter? = some letter
    if parameter.hasValue then
      match rest with
      | [] => some (.wants parameter settings)
      | '=' :: value => (settings.set? parameter (String.ofList value)).map .settled
      | value => (settings.set? parameter (String.ofList value)).map .settled
    else
      match ← settleFlag? settings parameter with
      | .settled settings => settleLetters? known settings rest
      | progress => some progress

/-- The ways to write an argument. -/
inductive Shape where
  /-- Two dashes, behind which no options come. -/
  | separator
  /-- A long option, without its dashes. -/
  | long (text : List Char)
  /-- Letters, without their dash. -/
  | letters (text : List Char)
  /-- Anything else; a dash alone as well. -/
  | plain
  deriving DecidableEq, Repr

/-- How an argument is written. -/
def shape (argument : String) : Shape :=
  match argument.toList with
  | ['-', '-'] => .separator
  | '-' :: '-' :: text => .long text
  | ['-'] => .plain
  | '-' :: text => .letters text
  | _ => .plain

/-- Settles an option. -/
def settleOption? (known : List Parameter) (settings : Settings) : Shape → Option Progress
  | .long text => settleLong? known settings text
  | .letters text => settleLetters? known settings text
  | .plain => none
  | .separator => none

/-! ### Commands -/

/-- The names of commands. -/
inductive CommandName where
  /-- Compiles a grammar. -/
  | compile
  /-- Validates a document. -/
  | validate
  /-- Shows the elements of a schema. -/
  | inspect
  /-- Lists the issues of a schema. -/
  | check
  deriving DecidableEq, Repr

namespace CommandName

/-- The command of a name. -/
def ofText? : String → Option CommandName
  | "compile" => some compile
  | "validate" => some validate
  | "inspect" => some inspect
  | "check" => some check
  | _ => none

/-- The options of a command. -/
def parameters : CommandName → List Parameter
  | compile => [.strict, .help, .searchDirectory, .output, .issues]
  | validate => [.strict, .help, .searchDirectory, .schema]
  | inspect => [.strict, .help, .searchDirectory, .element, .json]
  | check => [.strict, .help, .searchDirectory]

end CommandName

/-- A command with what it works on. -/
inductive Command where
  /-- Compiles a grammar to a file or to the output. -/
  | compile (grammar : String) (output : Option String) (issues : Bool)
  /-- Validates a document against a schema. -/
  | validate (schema document : String)
  /-- Shows one or all elements of a schema. -/
  | inspect (schema : String) (element : Option String) (json : Bool)
  /-- Lists the issues of a schema. -/
  | check (schema : String)
  deriving DecidableEq, Repr

/-- A command and how it is carried out. -/
structure Invocation where
  /-- Whether the limits are tight. -/
  strict : Bool
  /-- The directories to search for grammars. -/
  searchDirectories : List String
  /-- The command. -/
  command : Command
  deriving DecidableEq, Repr

/-- What the arguments ask for. -/
inductive Request where
  /-- To carry out a command. -/
  | run (invocation : Invocation)
  /-- To tell the version. -/
  | version
  /-- To tell the usage. -/
  | help
  deriving DecidableEq, Repr

/-- The command that some settings describe, if they are complete. -/
def CommandName.command? (name : CommandName) (settings : Settings) : Option Command := do
  let operand ← settings.operand
  match name with
  | compile => some (.compile operand (settings.value? .output) (settings.has .issues))
  | validate => do
    let schema ← settings.value? .schema
    some (.validate schema operand)
  | inspect => some (.inspect operand (settings.value? .element) (settings.has .json))
  | check => some (.check operand)

/-- What an option asks for that ends the reading of arguments. -/
def Request.ofFinal (parameter : Parameter) : Request :=
  if parameter = .version then .version else .help

/-! ### Lists of arguments -/

/-- The settings after operands. -/
def settleOperands? (settings : Settings) : List String → Option Settings
  | [] => some settings
  | operand :: rest => do
    let settings ← settings.setOperand? operand
    settleOperands? settings rest

/-- The settings of the arguments of a command, or the option that ends their reading. -/
def settle? (known : List Parameter) (settings : Settings) :
    List String → Option (Settings ⊕ Parameter)
  | [] => some (.inl settings)
  | argument :: rest =>
    match shape argument with
    | .separator => (settleOperands? settings rest).map .inl
    | .plain => do
      let settings ← settings.setOperand? argument
      settle? known settings rest
    | written => do
      match ← settleOption? known settings written, rest with
      | .settled settings, rest => settle? known settings rest
      | .final parameter, _ => some (.inr parameter)
      | .wants _ _, [] => none
      | .wants parameter settings, value :: rest =>
        -- What looks like an option is no value.
        if shape value = .plain then do
          let settings ← settings.set? parameter value
          settle? known settings rest
        else none

/-- What the arguments of a command ask for. -/
def CommandName.request? (name : CommandName) (strict : Bool) (arguments : List String) :
    Option Request := do
  match ← settle? name.parameters {} arguments with
  | .inr parameter => some (.ofFinal parameter)
  | .inl settings =>
    let command ← name.command? settings
    some (.run ⟨strict || settings.has .strict, settings.values .searchDirectory, command⟩)

/-- Whether help can be had on some commands. -/
def hasHelpOn : List String → Bool
  | [] => true
  | [name] => name = "help" || (CommandName.ofText? name).isSome
  | _ => false

/-- What arguments ask for, the first of them settled before. -/
def requestAfter? (settings : Settings) : List String → Option Request
  | [] => none
  | argument :: rest =>
    match CommandName.ofText? argument with
    | some name => name.request? (settings.has .strict) rest
    | none =>
      if argument = "help" then if hasHelpOn rest then some .help else none
      else do
        match ← settleOption? [.strict, .version, .help] settings (shape argument) with
        | .settled settings => requestAfter? settings rest
        | .final parameter => some (.ofFinal parameter)
        | .wants _ _ => none

/-- What arguments ask for; `none`, if they are wrong. -/
def request? (arguments : List String) : Option Request := requestAfter? {} arguments

end RelaxSchema.CommandLine
