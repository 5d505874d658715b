/-!
# Command line arguments

What the program can be asked to do.  Options may stand in any order; each may be given once, and
the configuration file may be named before or after the command.
-/

namespace EnumForge.Cli

inductive Format where
  | yaml
  | json
deriving DecidableEq, Repr

inductive Command where
  /-- Print a file with all generators run. -/
  | expand (input : String)
  /-- Apply the proposed replacements, and print the result or write it back. -/
  | fix (input : String) (write : Bool)
  /-- List the enums of a file. -/
  | inspect (input : String) (format : Format)
  /-- List the generators. -/
  | macros
  /-- Write a configuration file. -/
  | init (force : Bool)
deriving DecidableEq, Repr

inductive Request where
  | version
  | run (config : Option String) (command : Command)
deriving DecidableEq, Repr

/-- The commands by name. -/
inductive Verb where
  | expand
  | fix
  | inspect
  | macros
  | init
deriving DecidableEq, Repr

def Verb.ofName? : String → Option Verb
  | "expand" => some .expand
  | "fix" => some .fix
  | "inspect" => some .inspect
  | "macros" => some .macros
  | "init" => some .init
  | _ => none

inductive OptionName where
  | config
  | input
  | format
  | write
  | force
deriving DecidableEq, Repr

/-- Whether an option comes with a value. -/
def OptionName.takesValue : OptionName → Bool
  | config | input | format => true
  | write | force => false

/-- The options of a command, by their long names. -/
def Verb.option? (v : Verb) (name : String) : Option OptionName :=
  match name, v with
  | "config", _ => some .config
  | "input", .expand | "input", .fix | "input", .inspect => some .input
  | "write", .fix => some .write
  | "format", .inspect => some .format
  | "force", .init => some .force
  | _, _ => none

/-- An argument as it is spelled. -/
inductive Spelling where
  /-- `--name` or `--name=value` -/
  | long (name : String) (value : Option String)
  /-- `-x`, with what follows the letter. -/
  | short (letter : Char) (attached : String)
  /-- `--` -/
  | escape
  | word (text : String)

def spell (argument : String) : Spelling :=
  match argument.toList with
  | ['-', '-'] => .escape
  | '-' :: '-' :: cs =>
    let name := String.ofList (cs.takeWhile (· != '='))
    match cs.dropWhile (· != '=') with
    | _ :: value => .long name (some (String.ofList value))
    | [] => .long name none
  | '-' :: c :: cs => .short c (String.ofList cs)
  | _ => .word argument

/-- Options with their values, in the order given. -/
abbrev Given := List (OptionName × String)

/-- Whether an argument can be the value of the option before it: nonempty, and not spelled like
an option. -/
def isValue (argument : String) : Bool :=
  match spell argument with
  | .word text => !text.isEmpty
  | _ => false

/-- An option as one argument gives it, with its value if the value is attached or not needed. -/
structure OptionHead where
  name : OptionName
  value : Option String
deriving DecidableEq, Repr

/-- An attached value must not be empty. -/
def attached? (name : OptionName) (value : String) : Option OptionHead :=
  if value.isEmpty then none else some ⟨name, some value⟩

/-- The value of a short option, which an equals sign may precede. -/
def afterEquals (text : String) : String :=
  match text.toList with
  | '=' :: cs => String.ofList cs
  | _ => text

/-- The option that an argument of a command gives. -/
def optionHead? (v : Verb) (argument : String) : Option OptionHead :=
  match spell argument with
  | .long name value =>
    (v.option? name).bind fun option ↦
      match option.takesValue, value with
      | true, some value => attached? option value
      | true, none => some ⟨option, none⟩
      | false, none => some ⟨option, some ""⟩
      | false, some _ => none
  | .short 'i' text =>
    (v.option? "input").bind fun option ↦
      if text.isEmpty then some ⟨option, none⟩ else attached? option (afterEquals text)
  | _ => none

/-- The options of a command.  Nothing may stand after `--`. -/
def options? (v : Verb) : List String → Option Given
  | [] => some []
  | ["--"] => some []
  | a :: rest =>
    match optionHead? v a with
    | none => none
    | some ⟨name, some value⟩ => (options? v rest).map ((name, value) :: ·)
    | some ⟨name, none⟩ =>
      match rest with
      | [] => none
      | value :: rest =>
        if isValue value then (options? v rest).map ((name, value) :: ·) else none

/-- The value of an option. -/
def lookup (name : OptionName) (given : Given) : Option String :=
  (given.find? (·.1 == name)).map Prod.snd

def format? (given : Given) : Option Format :=
  match lookup .format given with
  | none | some "yaml" => some .yaml
  | some "json" => some .json
  | some _ => none

/-- The command that its options make up. -/
def command? (v : Verb) (given : Given) : Option Command :=
  let input := lookup .input given
  match v with
  | .expand => input.map .expand
  | .fix => input.map fun i ↦ .fix i (lookup .write given).isSome
  | .inspect => input.bind fun i ↦ (format? given).map (.inspect i)
  | .macros => some .macros
  | .init => some (.init (lookup .force given).isSome)

/-- Whether no option is given twice. -/
def distinct (given : Given) : Bool := (given.map Prod.fst).Nodup

/-- The request after the name of a command.  A configuration file named here counts more than
one named before it. -/
def verbRequest? (outer : Option String) (name : String) (rest : List String) : Option Request := do
  let verb ← Verb.ofName? name
  let given ← options? verb rest
  if distinct given then
    let command ← command? verb given
    return .run ((lookup .config given).or outer) command
  else none

/-- What the arguments ask for; none if they make no sense. -/
def request? (outer : Option String) : List String → Option Request
  | [] => none
  | a :: rest =>
    match spell a with
    | .long "version" none => some .version
    | .short 'V' _ => some .version
    | .long "config" (some value) =>
      if outer.isSome || value.isEmpty then none else request? (some value) rest
    | .long "config" none =>
      match rest with
      | [] => none
      | value :: rest =>
        if outer.isSome || !isValue value then none else request? (some value) rest
    | .word name => verbRequest? outer name rest
    | _ => none

end EnumForge.Cli
