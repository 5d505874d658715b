import EnumForge.Yaml.Scalar

/-!
# YAML documents

A document is a tree of scalars, mappings and sequences.  A node may carry a number, and another
node with this number stands for the same.
-/

namespace EnumForge.Yaml

/-- What is said about a node before its content. -/
structure Properties where
  anchor : Option Nat := none
  tag : Option String := none
deriving DecidableEq, Repr

inductive Doc where
  | scalar (properties : Properties) (form : ScalarForm) (text : String)
  | mapping (properties : Properties) (entries : List (Doc × Doc))
  | sequence (properties : Properties) (items : List Doc)
  /-- The same as the node with this number. -/
  | reference (anchor : Nat)

namespace Doc

/-- What an absent value reads as. -/
def absent : Doc := .scalar {} .plain ""

def anchor? : Doc → Option Nat
  | scalar p _ _ | mapping p _ | sequence p _ => p.anchor
  | reference _ => none

mutual

/-- A node and all the nodes inside it, in the order in which they start. -/
def nodes : Doc → List Doc
  | scalar p form text => [scalar p form text]
  | mapping p entries => mapping p entries :: entriesNodes entries
  | sequence p items => sequence p items :: itemsNodes items
  | reference n => [reference n]

def itemsNodes : List Doc → List Doc
  | [] => []
  | d :: ds => nodes d ++ itemsNodes ds

def entriesNodes : List (Doc × Doc) → List Doc
  | [] => []
  | e :: es => entryNodes e ++ entriesNodes es

def entryNodes : Doc × Doc → List Doc
  | (key, value) => nodes key ++ nodes value

end

/-- What a node of the document `root` stands for. -/
def resolve (root : Doc) : Doc → Doc
  | reference n => ((nodes root).reverse.find? (·.anchor? == some n)).getD (reference n)
  | d => d

end Doc

end EnumForge.Yaml
