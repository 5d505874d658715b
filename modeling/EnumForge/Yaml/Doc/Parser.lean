import EnumForge.Yaml.Doc
import EnumForge.Yaml.Token

/-!
# Documents from tokens

Each reader takes the tokens that are left, and gives back what it has read and the tokens after
it.  The nodes of a document are bounded in number by its tokens.
-/

namespace EnumForge.Yaml

namespace Doc

/-! ### Properties -/

/-- Handles and what they stand for. -/
abbrev Handles := List (String × String)

/-- The handles that every document knows. -/
def commonHandles : Handles := [("!", "!"), ("!!", "tag:yaml.org,2002:")]

/-- The whole tag; none if its handle is not known. -/
def fullTag? (handles : Handles) (name : TagName) : Option String :=
  if name.handle.isEmpty then some name.suffix
  else (handles.lookup name.handle).map (· ++ name.suffix)

/-- The properties of a node in either order. -/
def properties? (handles : Handles) : List Token → Option (Properties × List Token)
  | .anchor n :: .tag t :: ts | .tag t :: .anchor n :: ts =>
    (fullTag? handles t).map fun tag ↦ (⟨some n, some tag⟩, ts)
  | .anchor n :: ts => some (⟨some n, none⟩, ts)
  | .tag t :: ts => (fullTag? handles t).map fun tag ↦ (⟨none, some tag⟩, ts)
  | ts => some ({}, ts)

/-- A node that has properties needs no content. -/
def bare? (p : Properties) (ts : List Token) : Option (Doc × List Token) :=
  if p = {} then none else some (.scalar p .plain "", ts)

/-! ### Ends

Before these tokens a node may be absent. -/

def endsItem : Token → Bool
  | .item | .blockEnd => true
  | _ => false

def endsEntry : Token → Bool
  | .key | .value | .blockEnd => true
  | _ => false

def endsPlainItem (t : Token) : Bool := endsItem t || endsEntry t

def endsBracketed : Token → Bool
  | .comma | .closeBracket => true
  | _ => false

def endsBraced : Token → Bool
  | .comma | .closeBrace => true
  | _ => false

def endsBracedKey (t : Token) : Bool := t == .value || endsBraced t

def endsDocument : Token → Bool
  | .version _ _ | .handle _ _ | .documentStart | .documentEnd => true
  | _ => false

/-- The tokens after the comma that divides two items; the first item needs none. -/
def afterComma? (first : Bool) (ts : List Token) : Option (List Token) :=
  if first then some ts
  else match ts with
    | .comma :: ts => some ts
    | _ => none

/-! ### Nodes -/

section

variable (handles : Handles)

mutual

/-- A node; `block` says whether it may be a block, and `plainItems` whether the items of a
sequence may stand without a block of their own. -/
def node (block plainItems : Bool) : Nat → List Token → Option (Doc × List Token)
  | 0, _ => none
  | _ + 1, .reference n :: ts => some (.reference n, ts)
  | depth + 1, ts =>
    match properties? handles ts with
    | none => none
    | some (p, ts) =>
      match ts with
      | .scalar form text :: ts => some (.scalar p form text, ts)
      | .openBracket :: ts => (bracketed depth true ts).map fun (ds, ts) ↦ (.sequence p ds, ts)
      | .openBrace :: ts => (braced depth true ts).map fun (es, ts) ↦ (.mapping p es, ts)
      | .blockSequence :: rest =>
        if block then (items depth rest).map fun (ds, ts) ↦ (.sequence p ds, ts) else bare? p ts
      | .blockMapping :: rest =>
        if block then (entries depth rest).map fun (es, ts) ↦ (.mapping p es, ts) else bare? p ts
      | .item :: _ =>
        if plainItems then (plainItemList depth ts).map fun (ds, ts) ↦ (.sequence p ds, ts)
        else bare? p ts
      | ts => bare? p ts

/-- A node, or nothing before one of the given tokens. -/
def nodeUnless (stop : Token → Bool) (block plainItems : Bool) :
    Nat → List Token → Option (Doc × List Token)
  | 0, _ => none
  | depth + 1, ts =>
    if ts.head?.any stop then some (.absent, ts) else node block plainItems depth ts

/-- The value of a key, if a mark of one comes next. -/
def value (stop : Token → Bool) (block : Bool) : Nat → List Token → Option (Doc × List Token)
  | 0, _ => none
  | depth + 1, .value :: ts => nodeUnless stop block block depth ts
  | _ + 1, ts => some (.absent, ts)

/-- The items of a block sequence. -/
def items : Nat → List Token → Option (List Doc × List Token)
  | 0, _ => none
  | depth + 1, .item :: ts =>
    match nodeUnless endsItem true false depth ts with
    | none => none
    | some (d, ts) => (items depth ts).map fun (ds, ts) ↦ (d :: ds, ts)
  | _ + 1, .blockEnd :: ts => some ([], ts)
  | _ + 1, _ => none

/-- The items of a sequence that stands as far left as its key. -/
def plainItemList : Nat → List Token → Option (List Doc × List Token)
  | 0, _ => none
  | depth + 1, .item :: ts =>
    match nodeUnless endsPlainItem true false depth ts with
    | none => none
    | some (d, ts) => (plainItemList depth ts).map fun (ds, ts) ↦ (d :: ds, ts)
  | _ + 1, ts => some ([], ts)

/-- The entries of a block mapping. -/
def entries : Nat → List Token → Option (List (Doc × Doc) × List Token)
  | 0, _ => none
  | depth + 1, .key :: ts =>
    match nodeUnless endsEntry true true depth ts with
    | none => none
    | some (k, ts) =>
      match value endsEntry true depth ts with
      | none => none
      | some (v, ts) => (entries depth ts).map fun (es, ts) ↦ ((k, v) :: es, ts)
  | _ + 1, .blockEnd :: ts => some ([], ts)
  | _ + 1, _ => none

/-- The items of a sequence after its bracket, or after one of its items.  An item that starts
with a key is a mapping with one entry; the mark of such a key takes the next token with it if
the key is absent. -/
def bracketed : Nat → Bool → List Token → Option (List Doc × List Token)
  | 0, _, _ => none
  | _ + 1, _, .closeBracket :: ts => some ([], ts)
  | depth + 1, first, ts =>
    match afterComma? first ts with
    | none => none
    | some (.closeBracket :: ts) => some ([], ts)
    | some (.key :: ts) =>
      let key :=
        if ts.head?.any fun t ↦ t == .value || endsBracketed t then some (.absent, ts.tail)
        else node false false depth ts
      match key with
      | none => none
      | some (k, ts) =>
        match value endsBracketed false depth ts with
        | none => none
        | some (v, ts) =>
          (bracketed depth false ts).map fun (ds, ts) ↦ (.mapping {} [(k, v)] :: ds, ts)
    | some ts =>
      match node false false depth ts with
      | none => none
      | some (d, ts) => (bracketed depth false ts).map fun (ds, ts) ↦ (d :: ds, ts)

/-- The entries of a mapping after its brace, or after one of its entries. -/
def braced : Nat → Bool → List Token → Option (List (Doc × Doc) × List Token)
  | 0, _, _ => none
  | _ + 1, _, .closeBrace :: ts => some ([], ts)
  | depth + 1, first, ts =>
    match afterComma? first ts with
    | none => none
    | some (.closeBrace :: ts) => some ([], ts)
    | some (.key :: ts) =>
      match nodeUnless endsBracedKey false false depth ts with
      | none => none
      | some (k, ts) =>
        match value endsBraced false depth ts with
        | none => none
        | some (v, ts) => (braced depth false ts).map fun (es, ts) ↦ ((k, v) :: es, ts)
    | some ts =>
      match node false false depth ts with
      | none => none
      | some (k, ts) => (braced depth false ts).map fun (es, ts) ↦ ((k, .absent) :: es, ts)

end

end

/-! ### Documents -/

/-- The handles that directives declare, and the tokens after them.  A version stands once and is
a known one, and no handle is declared twice. -/
def directives? (versioned : Bool) (handles : Handles) :
    List Token → Option (Handles × List Token)
  | .version major minor :: ts =>
    if versioned || !(major == 1 && (minor == 1 || minor == 2)) then none
    else directives? true handles ts
  | .handle name stem :: ts =>
    if (handles.lookup name).isSome then none
    else directives? versioned ((name, stem) :: handles) ts
  | ts => some (handles ++ commonHandles, ts)

/-- A document and the tokens after it.  A mark of its start is needed only after directives, and
only a document with this mark may be empty. -/
def document? (ts : List Token) : Option (Doc × List Token) :=
  let depth := 4 * (ts.length + 1)
  match directives? false [] ts with
  | none => none
  | some (handles, .documentStart :: rest) =>
    if rest.head?.all endsDocument then some (.absent, rest)
    else node handles true false depth rest
  | some (handles, rest) =>
    if rest.length < ts.length then none else node handles true false depth ts

/-- The only document of a text.  After it come at most marks of its end. -/
def ofTokens? (ts : List Token) : Option Doc :=
  if ts.isEmpty then some .absent
  else match document? ts with
    | none => none
    | some (d, rest) => if rest.all (· == .documentEnd) then some d else none

end Doc

end EnumForge.Yaml
