import ContextFree.Catalog
import ContextFree.CommandLine.Options
import ContextFree.Normalization

/-!
# Reports of the command line

The command prints the input grammar and its normal form, or the grammar of every
stage. A failure is reported with what was being done and the chain of its causes.
-/

namespace ContextFree.CommandLine

/-- Why an input could not be read. -/
inductive ReadFailure where
  | system (details : String) (code : Nat)
  | notText
  deriving DecidableEq, Repr

def ReadFailure.message : ReadFailure → String
  | system details code => details ++ " (os error " ++ toString code ++ ")"
  | notText => "stream did not contain valid UTF-8"

/-- Where the grammar comes from. -/
inductive Place where
  | sample
  | standardInput
  | file (path : String)
  deriving DecidableEq, Repr

/-- A single dash, like no input at all, stands for standard input. -/
def Options.place (o : Options) : Place :=
  if o.sample then .sample
  else
    match o.input with
    | none => .standardInput
    | some "-" => .standardInput
    | some path => .file path

/-- What was being done when something failed, and why, outermost cause first. -/
structure Failure where
  context : String
  causes : List String
  deriving DecidableEq, Repr

/-- Indent a text. The first line has its own lead. -/
def indented (lead rest text : String) : String :=
  lead ++ String.intercalate ("\n" ++ rest) (text.splitOn "\n")

/-- The causes of a failure; several causes are numbered. -/
def causesText : List String → String
  | [cause] => indented "    " "    " cause ++ "\n"
  | causes =>
      String.join (causes.zipIdx.map fun (cause, i) =>
        indented ("    " ++ toString i ++ ": ") "       " cause ++ "\n")

def Failure.text (f : Failure) : String :=
  "Error: " ++ f.context ++ "\n\nCaused by:\n" ++ causesText f.causes

structure Report where
  code : Nat
  stdout : String
  stderr : String
  deriving DecidableEq, Repr

def definitionCauses (e : DefinitionError) : List String :=
  match e with
  | .malformed v => [e.message, v.message]
  | _ => [e.message]

def normalizeCauses (e : NormalizeError) : List String :=
  match e with
  | .invariant _ v => [e.message, v.message]
  | .freshSymbolsExhausted _ => [e.message]

/-- The grammar to normalize. `content` is what reading the input gave. -/
def loadGrammar (o : Options) (content : Except ReadFailure String) : Except Failure Grammar :=
  let construct (context : String) (result : Except DefinitionError Grammar) :
      Except Failure Grammar :=
    match result with
    | .ok g => .ok g
    | .error e => .error ⟨context, definitionCauses e⟩
  match o.place, content with
  | .sample, _ => construct "invalid sample grammar" Catalog.sample.grammar
  | .standardInput, .error e => .error ⟨"during read stdin", [e.message]⟩
  | .file path, .error e => .error ⟨"during read " ++ path, [e.message]⟩
  | _, .ok source => construct "during construct Grammar" (Grammar.ofSource source o.declarations)

/-- A grammar under the title of its stage. -/
def titled (stage : Stage) (g : Grammar) : String :=
  "### " ++ stage.title ++ "\n" ++ g.text ++ "\n"

/-- The sections that are printed: all of them, or the first and the last stage. -/
def sections (o : Options) (stages : List (Stage × Grammar)) : String :=
  String.join (stages.filterMap fun (stage, g) =>
    if o.stages || stage = .input || stage = .normalization then some (titled stage g)
    else none)

/-- What the command prints for the given options and contents of its input. -/
def report (o : Options) (content : Except ReadFailure String) : Report :=
  match loadGrammar o content with
  | .error f => ⟨1, "", f.text⟩
  | .ok g =>
      let run := g.normalization (if o.preserveEmpty then .preserve else .drop)
      let stdout := sections o run.stages
      match run.normalForm with
      | .ok _ => ⟨0, stdout, ""⟩
      | .error e =>
          let failure : Failure := ⟨"failed to normalize the grammar", normalizeCauses e⟩
          ⟨1, stdout, failure.text⟩

/-- What the command prints when its arguments are wrong. -/
def usageReport (e : UsageError) : Report := ⟨2, "", "error: " ++ e.message ++ "\n"⟩

end ContextFree.CommandLine
