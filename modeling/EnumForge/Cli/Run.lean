import EnumForge.AppEnum.Config
import EnumForge.Cli.Arguments
import EnumForge.Cli.Workspace
import EnumForge.Diagnostic.FixIt
import EnumForge.Diagnostic.Report
import EnumForge.Expansion
import EnumForge.Inspect

/-!
# Running commands

A command is a function of the files it can see.  It prints, reports diagnostics, leaves notes,
may write one file, and ends with a status.
-/

namespace EnumForge.Cli

def programName : String := "aeg"

def programVersion : String := "0.1.0"

/-- Why a command failed, with what led to it. -/
structure Failure where
  message : String
  causes : List String := []
deriving DecidableEq, Repr

namespace Failure

/-- A cause after `before`, its further lines indented by `margin` spaces. -/
def causeText (before : String) (margin : Nat) (cause : String) : String :=
  "\n" ++ before ++ ("\n" ++ Text.copies margin ' ').intercalate (cause.splitOn "\n")

/-- A single cause stands alone; several are numbered. -/
def text (f : Failure) : String :=
  let header := "Error: " ++ f.message
  match f.causes with
  | [] => header
  | [cause] => header ++ "\n\nCaused by:" ++ causeText "    " 4 cause
  | causes => header ++ "\n\nCaused by:" ++
    String.join (causes.zipIdx.map fun (cause, i) ↦ causeText (Text.padNat 5 i ++ ": ") 7 cause)

end Failure

/-- What a command leaves behind. -/
structure Effect where
  status : Nat := 0
  /-- Standard output. -/
  output : String := ""
  /-- Drawings of diagnostics. -/
  reports : List String := []
  /-- A closing remark. -/
  remark : Option String := none
  /-- A file to write, with its content. -/
  write : Option (String × String) := none
deriving DecidableEq, Repr

namespace Effect

def failed (f : Failure) (e : Effect := {}) : Effect :=
  { e with status := 1, remark := some f.text }

/-- Standard error: the drawings and the remark, each followed by the end of a line. -/
def errors (e : Effect) : String :=
  String.join ((e.reports ++ e.remark.toList).map (· ++ "\n"))

/-- How the lines start that open a remark. -/
def remarkStarts : List String := ["Error: ", "Applied ", "No fix-its ", "Created "]

/-- The lines of standard error from the remark on. -/
def notes (e : Effect) : List String :=
  let isRemark (l : List Char) : Bool := remarkStarts.any fun s ↦ s.toList.isPrefixOf l
  ((Text.splitLines e.errors.toList).dropWhile fun l ↦ !isRemark l).map fun l ↦
    String.ofList (Text.dropReturn l)

end Effect

/-- Arguments that make no sense. -/
def Effect.usage : Effect := { status := 2 }

/-- Ends with the failure or with the effect. -/
def finish (r : Except Failure Effect) : Effect :=
  match r with
  | .ok e => e
  | .error f => .failed f

/-! ### Inputs -/

/-- The settings of a configuration file, if there is one. -/
def loadSettings (w : Workspace) (path : String) : Except Failure (Option Settings) :=
  match w path with
  | .ok content =>
    match Settings.ofYaml? content with
    | some s => .ok (some s)
    | none => .error ⟨"failed to parse config " ++ path ++ ": not a valid configuration", []⟩
  | .error e =>
    if e.isAbsence then .ok none
    else .error ⟨"failed to read config " ++ path ++ ": " ++ e.message, []⟩

/-- A configuration file that is named must exist; the usual one need not. -/
def resolveSettings (w : Workspace) : Option String → Except Failure Settings
  | some path => do
    match ← loadSettings w path with
    | some s => return s
    | none => throw ⟨"config file " ++ path ++ " not found", []⟩
  | none => return (← loadSettings w Settings.fileName).getD {}

def readSource (w : Workspace) (path : String) : Except Failure String :=
  (w path).mapError fun e ↦ ⟨"failed to read " ++ path, [e.message]⟩

/-- The causes of a failed expansion, from the outermost to the innermost. -/
def hostCauses (e : HostError) : List String :=
  match e with
  | .parse cause => [e.message, cause.message]
  | _ => [e.message]

/-- Source and expansion of a file. -/
def expandFile (w : Workspace) (config : Option String) (input : String) :
    Except Failure (String × Expansion) := do
  let settings ← resolveSettings w config
  let source ← readSource w input
  match expandSource source settings.registry with
  | .ok e => return (source, e)
  | .error e => throw ⟨"failed to expand " ++ input, hostCauses e⟩

def reportsOf (input source : String) (e : Expansion) : List String :=
  e.diagnostics.map (Report.render { strokes := .ascii, width := 200 } input source)

/-! ### Commands -/

def runExpand (w : Workspace) (config : Option String) (input : String) :
    Except Failure Effect := do
  let (source, e) ← expandFile w config input
  let effect : Effect := { output := e.source, reports := reportsOf input source e }
  if e.hasErrors then
    return .failed ⟨toString e.errorCount ++ " error(s) while expanding " ++ input, []⟩ effect
  else return effect

def runFix (w : Workspace) (config : Option String) (input : String) (write : Bool) :
    Except Failure Effect := do
  let (source, e) ← expandFile w config input
  let reports := reportsOf input source e
  let applied := (e.diagnostics.flatMap Diagnostic.fixIts).length
  match applyFixIts source e.diagnostics with
  | .error err =>
    return .failed ⟨"failed to apply fix-its to " ++ input, hostCauses err⟩ { reports }
  | .ok fixed =>
    if !write then return { output := fixed, reports }
    else if applied = 0 then return { reports, remark := some ("No fix-its for " ++ input) }
    else
      return {
        reports
        remark := some ("Applied " ++ toString applied ++ " fix-it(s) to " ++ input)
        write := some (input, fixed) }

def runInspect (w : Workspace) (input : String) (format : Format) : Except Failure Effect := do
  let source ← readSource w input
  match parseSource source with
  | .error e => throw ⟨"failed to parse " ++ input, [e.message]⟩
  | .ok file =>
    let summaries := EnumSummary.ofFile file
    match format with
    | .yaml => return { output := EnumSummary.toYaml summaries }
    | .json => return { output := EnumSummary.toJson summaries }

def runMacros (w : Workspace) (config : Option String) : Except Failure Effect := do
  let settings ← resolveSettings w config
  let line (g : Generator) : String := "@" ++ g.name ++ "  (" ++ g.conformance ++ ")\n"
  return { output := String.join (settings.registry.entries.map line) }

/-- Writes a configuration file, over an existing one only by `force`. -/
def runInit (w : Workspace) (force : Bool) : Except Failure Effect :=
  let created : Effect := {
    remark := some ("Created " ++ Settings.fileName)
    write := some (Settings.fileName, Settings.template) }
  let refused : Failure :=
    ⟨Settings.fileName ++ " already exists. Use --force to overwrite.", []⟩
  match w Settings.fileName with
  | .error .notFound | .error .notAFolder => .ok created
  | .error .isAFolder => .error (if force then ⟨ReadError.isAFolder.message, []⟩ else refused)
  | _ => if force then .ok created else .error refused

/-- Runs a request on the files it can see. -/
def runRequest (w : Workspace) : Request → Effect
  | .version => { output := programName ++ " " ++ programVersion ++ "\n" }
  | .run config command => finish <| match command with
    | .expand input => runExpand w config input
    | .fix input write => runFix w config input write
    | .inspect input format => runInspect w input format
    | .macros => runMacros w config
    | .init force => runInit w force

/-- The files that a request may read. -/
def Request.paths : Request → List String
  | .version => []
  | .run config command =>
    let settings := config.getD Settings.fileName
    match command with
    | .expand input | .fix input _ => [settings, input]
    | .inspect input _ => [input]
    | .macros => [settings]
    | .init _ => [Settings.fileName]

/-- Runs the program. -/
def run (w : Workspace) (arguments : List String) : Effect :=
  match request? none arguments with
  | some r => runRequest w r
  | none => .usage

end EnumForge.Cli
