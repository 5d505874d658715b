import EnumForge.AppEnum.Settings
import EnumForge.Yaml.Reader

/-!
# Configuration files

Settings as a YAML mapping.  Keys that are not known are ignored, and a known key may stand once.
-/

namespace EnumForge.Settings

open Yaml (Doc)

/-- The text of a scalar. -/
def text? : Doc → Option String
  | .scalar _ _ text => some text
  | _ => none

/-- Whether a scalar may stand for a truth value: it is plain, or a block that is tagged so. -/
def isBoolForm (tag : Option String) : Yaml.ScalarForm → Bool
  | .plain => true
  | .literal => tag == some "tag:yaml.org,2002:bool"
  | .quoted | .folded => false

def bool? : Doc → Option Bool
  | .scalar p form text =>
    if !isBoolForm p.tag form then none
    else if ["true", "True", "TRUE"].contains text then some true
    else if ["false", "False", "FALSE"].contains text then some false
    else none
  | _ => none

/-- The entries of a mapping; an absent value stands for the empty one. -/
def entries? : Doc → Option (List (Doc × Doc))
  | .mapping _ entries => some entries
  | .scalar _ .plain "" => some []
  | _ => none

/-- The entries of a mapping whose keys are all scalars, with references resolved. -/
def fields? (root d : Doc) : Option (List (String × Doc)) :=
  (entries? d).bind fun es ↦ es.mapM fun (key, value) ↦
    (text? (root.resolve key)).map (·, root.resolve value)

/-- Reads the value of a key that may stand once; `default` if it is missing. -/
def field? {α : Type} (key : String) (read : Doc → Option α) (default : α)
    (fields : List (String × Doc)) : Option α :=
  match fields.filter (·.1 == key) with
  | [] => some default
  | [(_, value)] => read value
  | _ => none

/-- The settings that a document gives. -/
def ofDoc? (root : Doc) : Option Settings := do
  let defaults : Settings := {}
  let fields ← fields? root root
  let conformance ← field? "conformance" text? defaults.conformance fields
  let insert ← field? "fixit" (fun d ↦ do
    field? "insert_missing_inheritance" bool? defaults.insertMissingInheritance
      (← fields? root d)) defaults.insertMissingInheritance fields
  return ⟨conformance, insert⟩

/-- Reads a configuration file. -/
def ofYaml? (text : String) : Option Settings := (Yaml.read text).bind ofDoc?

/-- The name under which the configuration is looked for. -/
def fileName : String := ".aeg.yaml"

/-- A configuration file with all settings at their defaults. -/
def template : String :=
  "# aeg configuration\n" ++
  "conformance: AppEnum   # protocol added by @AppEnumGen / @AppEnumGenFixIt\n" ++
  "\n" ++
  "fixit:\n" ++
  "  # also add `: AppEnum` to enums declared without any inheritance clause\n" ++
  "  insert_missing_inheritance: false\n"

end EnumForge.Settings
