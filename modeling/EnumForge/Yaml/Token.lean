import EnumForge.Yaml.Scalar

/-!
# YAML tokens

The marks and scalars of a text in order, with marks of their own where a block starts or ends and
before the keys of mappings.
-/

namespace EnumForge.Yaml

/-- A tag as it is written: a handle, which directives explain, and what follows it. -/
structure TagName where
  handle : String
  suffix : String
deriving DecidableEq, Repr

inductive Token where
  /-- The version of the language that a document follows. -/
  | version (major minor : Nat)
  /-- What a handle stands for. -/
  | handle (name stem : String)
  | documentStart
  | documentEnd
  | blockSequence
  | blockMapping
  /-- The end of a block. -/
  | blockEnd
  /-- The dash before an item. -/
  | item
  /-- Comes before a key. -/
  | key
  /-- Comes before a value. -/
  | value
  | openBracket
  | closeBracket
  | openBrace
  | closeBrace
  | comma
  /-- The number of the node that follows. -/
  | anchor (number : Nat)
  /-- The same node as the one with this number. -/
  | reference (number : Nat)
  | tag (name : TagName)
  | scalar (form : ScalarForm) (text : String)
deriving DecidableEq, Repr

end EnumForge.Yaml
