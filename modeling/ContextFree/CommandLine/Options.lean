import ContextFree.Definition.Loading

/-!
# Options of the command line

Options are long names; a value follows as the next argument or behind an equals
sign. Everything that is not an option names the input, of which there is at most
one. Two dashes end the options.
-/

namespace ContextFree.CommandLine

structure Options where
  /-- Use the sample grammar instead of an input. -/
  sample : Bool := false
  declarations : Declarations := {}
  preserveEmpty : Bool := false
  /-- Print the grammar after every stage. -/
  stages : Bool := false
  input : Option String := none
  deriving DecidableEq, Repr

inductive UsageError where
  | unknownOption (argument : String)
  | valueMissing (option : String)
  | valueUnexpected (option : String)
  | repeated (option : String)
  | secondInput (argument : String)
  | emptyInput
  | sampleWithInput
  deriving DecidableEq, Repr

def UsageError.message : UsageError → String
  | unknownOption argument => "unexpected argument '" ++ argument ++ "'"
  | valueMissing option => "a value is required for '" ++ option ++ "'"
  | valueUnexpected option => "no value is expected for '" ++ option ++ "'"
  | repeated option => "'" ++ option ++ "' is given more than once"
  | secondInput argument => "unexpected argument '" ++ argument ++ "'"
  | emptyInput => "the name of the input is empty"
  | sampleWithInput => "'--example' cannot be used with an input"

/-- Take an option that has no value. -/
def Options.setFlag? (o : Options) : String → Option (Except UsageError Options)
  | "--example" => some (if o.sample then .error (.repeated "--example")
      else .ok { o with sample := true })
  | "--preserve-empty" => some (if o.preserveEmpty then .error (.repeated "--preserve-empty")
      else .ok { o with preserveEmpty := true })
  | "--stages" => some (if o.stages then .error (.repeated "--stages")
      else .ok { o with stages := true })
  | _ => none

/-- Take an option with its value. Lists are separated by commas and add up. -/
def Options.setValue? (o : Options) (value : String) :
    String → Option (Except UsageError Options)
  | "--nonterminals" =>
      let names := o.declarations.nonterminals ++ value.splitOn ","
      some (.ok { o with declarations := { o.declarations with nonterminals := names } })
  | "--terminals" =>
      let names := o.declarations.terminals ++ value.splitOn ","
      some (.ok { o with declarations := { o.declarations with terminals := names } })
  | "--start" =>
      some (match o.declarations.start with
        | some _ => .error (.repeated "--start")
        | none => .ok { o with declarations := { o.declarations with start := some value } })
  | _ => none

def Options.setInput (o : Options) (argument : String) : Except UsageError Options :=
  if argument.isEmpty then .error .emptyInput
  else
    match o.input with
    | some _ => .error (.secondInput argument)
    | none => .ok { o with input := some argument }

/-- Whether an argument can be the value of the option before it. -/
def isValue (argument : String) : Bool :=
  match argument.toList with
  | '-' :: _ :: _ => false
  | _ => true

/-- An option and the value behind its equals sign. -/
def splitOption (argument : String) : String × Option String :=
  let name := argument.toList.takeWhile (· != '=')
  match argument.toList.dropWhile (· != '=') with
  | [] => (argument, none)
  | _ :: value => (String.ofList name, some (String.ofList value))

/-- Take one argument that begins with two dashes. The value it may take from the next
argument is given too; the result says whether it was used. -/
def Options.setOption (o : Options) (argument : String) (next : Option String) :
    Except UsageError (Options × Bool) :=
  let (name, attached) := splitOption argument
  match o.setFlag? name, attached with
  | some _, some _ => .error (.valueUnexpected name)
  | some result, none => result.map fun o => (o, false)
  | none, some value =>
      match o.setValue? value name with
      | some result => result.map fun o => (o, false)
      | none => .error (.unknownOption argument)
  | none, none =>
      match o.setValue? (next.getD "") name with
      | none => .error (.unknownOption argument)
      | some result =>
          if next.any isValue then result.map fun o => (o, true)
          else .error (.valueMissing name)

def Options.parseFrom (o : Options) : List String → Except UsageError Options
  | [] => .ok o
  | "--" :: rest => rest.foldlM setInput o
  | argument :: rest =>
      match argument.toList with
      | '-' :: '-' :: _ =>
          match rest with
          | [] => (o.setOption argument none).map Prod.fst
          | next :: rest =>
              match o.setOption argument (some next) with
              | .error e => .error e
              | .ok (o, true) => o.parseFrom rest
              | .ok (o, false) => o.parseFrom (next :: rest)
      | '-' :: _ :: _ => .error (.unknownOption argument)
      | _ =>
          match o.setInput argument with
          | .error e => .error e
          | .ok o => o.parseFrom rest

/-- The options given by the arguments. -/
def Options.parse (arguments : List String) : Except UsageError Options :=
  match Options.parseFrom {} arguments with
  | .error e => .error e
  | .ok o => if o.sample && o.input.isSome then .error .sampleWithInput else .ok o

end ContextFree.CommandLine
