import EnumForge.Proofs.AppEnum.Printing
import EnumForge.Proofs.Trivia.Indent

/-!
# The text of generated code

The display members of an enum, letter by letter.  The mapping has one line for each list of cases,
with the entries of the list on it, and is printed at whatever indentation it is asked for.
-/

namespace EnumForge

open Text (isIdentifier unticked)

/-! ### Texts of tokens -/

namespace Token

theorem source_plain (kind : TokenKind) (text : String) : (plain kind text).source = text := by
  simp [source, plain]

theorem source_spaced_plain (kind : TokenKind) (text : String) :
    (plain kind text).spaced.source = text ++ " " := by
  have htrailing : (plain kind text).spaced.trailing.text = " " := rfl
  simp [source, htrailing]
  rfl

theorem source_withLeading {t : Token} (h : t.leading = .empty) (l : Trivia) :
    (t.withLeading l).source = l.text ++ t.source := by
  have hsource : (t.withLeading l).source = l.text ++ t.text ++ t.trailing.text := rfl
  rw [hsource, source, h, Trivia.text_empty, String.empty_append, String.append_assoc]

theorem source_newlineIndent {t : Token} (h : t.leading = .empty) {indent : String}
    (hindent : ∀ c ∈ indent.toList, Trivia.isIndentChar c = true) :
    (t.withLeading (Trivia.newlineIndent indent)).source = "\n" ++ indent ++ t.source := by
  rw [source_withLeading h, Trivia.newlineIndent, Trivia.text_newlinesIndent 1 hindent]
  rfl

theorem escape_eq_self {cs : List Char} (h : ∀ c ∈ cs, c ≠ '\x22' ∧ c ≠ '\\') :
    escape cs = cs := by
  induction cs with
  | nil => rfl
  | cons c cs ih =>
    obtain ⟨⟨hquote, hslash⟩, hcs⟩ := List.forall_mem_cons.1 h
    rw [escape, if_neg (by simp [hquote, hslash]), ih hcs]

/-- The name of an identifier needs no escapes. -/
theorem source_stringLiteral {text : String} (h : isIdentifier text = true) :
    (stringLiteral (unticked text)).source = "\"" ++ unticked text ++ "\"" := by
  have hquote := Text.notMem_unticked h (c := '\x22') (by decide)
  have hslash := Text.notMem_unticked h (c := '\\') (by decide)
  have hescape : escape (unticked text).toList = (unticked text).toList := by
    refine escape_eq_self fun c hc ↦ ⟨?_, ?_⟩
    · rintro rfl
      exact hquote hc
    · rintro rfl
      exact hslash hc
  rw [stringLiteral, source_plain, hescape, String.ofList_toList]

end Token

theorem Node.source_cons {α : Type} [Node α] (a : α) (as : List α) :
    Node.source (a :: as) = Node.source a ++ Node.source as := by
  have hcons : Node.tokens (a :: as) = Node.tokens a ++ Node.tokens as := rfl
  simp only [Node.source, hcons, List.map_append, String.join_append]

theorem Node.source_eq_of_tokens {α : Type} [Node α] {a : α} {t : Token}
    (h : Node.tokens a = [t]) : Node.source a = t.source := by
  rw [Node.source, h, List.map_singleton, String.join_cons, String.join_nil, String.append_empty]

namespace Display

/-! ### Entries of a mapping -/

/-- `.name: "label"` -/
def entryText (name : String) : String := "." ++ name ++ ": \"" ++ unticked name ++ "\""

/-- The entries of one list of cases, on a line of their own. -/
def lineText (indent : String) (names : List String) : String :=
  "\n" ++ indent ++ ", ".intercalate (names.map entryText)

/-- The mapping as it is printed, its lines at `inner` and its closing bracket at `outer`. -/
def mappingText (outer inner : String) (cases : List (List String)) : String :=
  if cases.isEmpty then "[:]"
  else "[" ++ ",".intercalate (cases.map (lineText inner)) ++ "\n" ++ outer ++ "]"

/-- The entries that the lists stand for, the first list being the `i`-th. -/
def entriesFrom (i : Nat) (cases : List (List String)) : List CaseEntry :=
  (cases.zipIdx i).flatMap fun (names, j) ↦ names.map fun name ↦ ⟨.plain .identifier name, j⟩

theorem entriesFrom_cons (i : Nat) (names : List String) (cases : List (List String)) :
    entriesFrom i (names :: cases) =
      names.map (fun name ↦ ⟨.plain .identifier name, i⟩) ++ entriesFrom (i + 1) cases := by
  rw [entriesFrom, List.zipIdx_cons, List.flatMap_cons]
  rfl

theorem isIdentifier_of_mem_entriesFrom {i : Nat} {cases : List (List String)}
    (h : ∀ names ∈ cases, ∀ name ∈ names, isIdentifier name = true) :
    ∀ e ∈ entriesFrom i cases, isIdentifier e.name.text = true := by
  intro e he
  obtain ⟨⟨names, j⟩, hnames, he⟩ := List.mem_flatMap.1 he
  obtain ⟨name, hname, rfl⟩ := List.mem_map.1 he
  exact h names (List.fst_mem_of_mem_zipIdx hnames) name hname

/-- Entries with identifiers as names, where `previous` is the list of the entry before them. -/
def elementsOf (indent : String) (previous : Option Nat) : List CaseEntry → List DictionaryElement
  | [] => []
  | e :: es =>
    ⟨.implicitMember
        (if previous.all (· != e.declaration) then
          Token.period.withLeading (Trivia.newlineIndent indent) else Token.period)
        (.plain .identifier e.name.text), Token.colon.spaced,
      .string (Token.stringLiteral e.label), es.head?.map (separator e)⟩ ::
    elementsOf indent (some e.declaration) es

theorem elements_eq_ok {indent : String} {previous : Option CaseEntry} {es : List CaseEntry}
    (h : ∀ e ∈ es, isIdentifier e.name.text = true) :
    elements indent previous es =
      .ok (elementsOf indent (previous.map CaseEntry.declaration) es) := by
  induction es generalizing previous with
  | nil => rfl
  | cons e es ih =>
    obtain ⟨he, hes⟩ := List.forall_mem_cons.1 h
    refine elements_cons_eq_ok.2 ⟨_, _, element_eq_ok.2 ⟨he, rfl⟩, ih hes, ?_⟩
    cases previous <;> rfl

theorem source_element {period : Token} {name : String} (hname : isIdentifier name = true)
    (comma : Option Token) :
    Node.source (⟨.implicitMember period (.plain .identifier name), Token.colon.spaced,
      .string (Token.stringLiteral (unticked name)), comma⟩ : DictionaryElement) =
        period.source ++ name ++ ": \"" ++ unticked name ++ "\"" ++ Node.source comma := by
  have hcolon : Token.colon.spaced.source = ": " := rfl
  have htokens : Node.tokens (⟨.implicitMember period (.plain .identifier name),
      Token.colon.spaced, .string (Token.stringLiteral (unticked name)), comma⟩ :
        DictionaryElement) = period :: .plain .identifier name :: Token.colon.spaced ::
          .stringLiteral (unticked name) :: Node.tokens comma := rfl
  have hquote : (": \"" : String) = ": " ++ "\"" := rfl
  rw [Node.source, htokens]
  simp only [List.map_cons, String.join_cons, Token.source_plain, hcolon, hquote,
    Token.source_stringLiteral hname, String.append_assoc]
  rfl

/-- The entries of one list are on one line, before those of the next. -/
theorem source_line {indent : String} (hindent : ∀ c ∈ indent.toList, Trivia.isIndentChar c = true)
    {i : Nat} {name : String} {names : List String}
    (hnames : ∀ n ∈ name :: names, isIdentifier n = true) {es : List CaseEntry}
    (hes : ∀ e ∈ es.head?, e.declaration ≠ i) (previous : Option Nat) :
    Node.source (elementsOf indent previous
        ((name :: names).map (fun n ↦ ⟨.plain .identifier n, i⟩) ++ es)) =
      (if previous.all (· != i) then "\n" ++ indent else "") ++
        ", ".intercalate ((name :: names).map entryText) ++ (if es.isEmpty then "" else ",") ++
          Node.source (elementsOf indent (some i) es) := by
  have hperiod (startsLine : Bool) :
      (if startsLine then Token.period.withLeading (Trivia.newlineIndent indent)
        else Token.period).source = (if startsLine then "\n" ++ indent else "") ++ "." := by
    cases startsLine with
    | true => exact Token.source_newlineIndent rfl hindent
    | false => rfl
  induction names generalizing name previous with
  | nil =>
    have hcomma : Node.source (es.head?.map (separator ⟨.plain .identifier name, i⟩)) =
        if es.isEmpty then "" else "," := by
      cases es with
      | nil => rfl
      | cons e es =>
        have hne := hes e rfl
        simp only [List.head?_cons, Option.map_some, separator, if_neg hne]
        rfl
    rw [List.map_singleton, List.singleton_append, elementsOf, Node.source_cons]
    refine (congrArg (· ++ _) (source_element (hnames name List.mem_cons_self) _)).trans ?_
    rw [hperiod, hcomma]
    simp only [List.map_singleton, String.intercalate_singleton, entryText, String.append_assoc]
  | cons next names ih =>
    have hcomma : Node.source (some (separator ⟨.plain .identifier name, i⟩
        ⟨.plain .identifier next, i⟩)) = ", " := by
      rw [separator, if_pos rfl]
      rfl
    have hrest := ih (List.forall_mem_cons.1 hnames).2 (some i)
    rw [if_neg (by simp), String.empty_append] at hrest
    rw [List.map_cons, List.cons_append, elementsOf, Node.source_cons]
    refine (congrArg (· ++ _) (source_element (hnames name List.mem_cons_self)
      (some (separator _ ⟨.plain .identifier next, i⟩)))).trans ?_
    rw [hperiod, hcomma, hrest]
    simp only [List.map_cons, String.intercalate_cons_cons, entryText, String.append_assoc]

/-- One line for each list, with a comma behind every line but the last. -/
theorem source_lines {indent : String}
    (hindent : ∀ c ∈ indent.toList, Trivia.isIndentChar c = true) {cases : List (List String)}
    (hcases : ∀ names ∈ cases, names ≠ [] ∧ ∀ name ∈ names, isIdentifier name = true)
    {i : Nat} {previous : Option Nat} (hprevious : ∀ j ∈ previous, j < i) :
    Node.source (elementsOf indent previous (entriesFrom i cases)) =
      ",".intercalate (cases.map (lineText indent)) := by
  induction cases generalizing i previous with
  | nil => rfl
  | cons names cases ih =>
    obtain ⟨⟨hne, hnames⟩, hothers⟩ := List.forall_mem_cons.1 hcases
    obtain ⟨name, names, rfl⟩ := List.exists_cons_of_ne_nil hne
    have hstart : previous.all (· != i) = true := by
      cases previous with
      | none => rfl
      | some j =>
        have hlt := hprevious j rfl
        simpa using hlt.ne
    have hrest : Node.source (elementsOf indent (some i) (entriesFrom (i + 1) cases)) =
        ",".intercalate (cases.map (lineText indent)) := ih hothers (by simp)
    cases cases with
    | nil =>
      have hes : ∀ e ∈ ([] : List CaseEntry).head?, e.declaration ≠ i := by simp
      have hline := source_line hindent hnames hes previous
      rw [entriesFrom_cons]
      refine hline.trans ?_
      rw [if_pos hstart]
      simp [lineText, elementsOf, Node.source, Node.tokens, String.append_assoc]
    | cons next cases =>
      obtain ⟨hnext, -⟩ := (List.forall_mem_cons.1 hothers).1
      obtain ⟨first, more, rfl⟩ := List.exists_cons_of_ne_nil hnext
      have hes : ∀ e ∈ (entriesFrom (i + 1) ((first :: more) :: cases)).head?,
          e.declaration ≠ i := by
        rw [entriesFrom_cons]
        rintro e ⟨⟩
        simp
      have hmore : (entriesFrom (i + 1) ((first :: more) :: cases)).isEmpty = false := by
        rw [entriesFrom_cons]
        rfl
      have hlines : ",".intercalate
          (((name :: names) :: (first :: more) :: cases).map (lineText indent)) =
            lineText indent (name :: names) ++ "," ++
              ",".intercalate (((first :: more) :: cases).map (lineText indent)) :=
        String.intercalate_cons_of_ne_nil (by simp)
      rw [entriesFrom_cons, source_line hindent hnames hes, if_pos hstart, hrest, hmore,
        if_neg (by simp), hlines, lineText]

/-! ### Both members -/

theorem isIndentChar_indentUnit : ∀ c ∈ indentUnit.toList, Trivia.isIndentChar c = true := by
  simp [indentUnit, Trivia.isIndentChar]

theorem isIndentChar_indentStep (indent : String) :
    ∀ c ∈ (indentStep indent).toList, Trivia.isIndentChar c = true := by
  unfold indentStep
  split
  · simp [Trivia.isIndentChar]
  · exact isIndentChar_indentUnit

theorem exists_mapping {indent : String}
    (hindent : ∀ c ∈ indent.toList, Trivia.isIndentChar c = true) {cases : List (List String)}
    (hcases : ∀ names ∈ cases, names ≠ [] ∧ ∀ name ∈ names, isIdentifier name = true) :
    ∃ value, mapping (entriesFrom 0 cases) indent = .ok value ∧
      Node.source value = mappingText indent (indent ++ indentStep indent) cases := by
  cases cases with
  | nil => exact ⟨_, rfl, rfl⟩
  | cons names cases =>
    obtain ⟨hne, -⟩ := (List.forall_mem_cons.1 hcases).1
    obtain ⟨name, names, rfl⟩ := List.exists_cons_of_ne_nil hne
    have hids := isIdentifier_of_mem_entriesFrom (i := 0) fun names hnames ↦ (hcases names hnames).2
    have hstep : ∀ c ∈ (indent ++ indentStep indent).toList, Trivia.isIndentChar c = true := by
      rw [String.toList_append, List.forall_mem_append]
      exact ⟨hindent, isIndentChar_indentStep indent⟩
    have hentries : elements (indent ++ indentStep indent) none
        (entriesFrom 0 ((name :: names) :: cases)) = .ok (elementsOf (indent ++ indentStep indent)
          none (entriesFrom 0 ((name :: names) :: cases))) := elements_eq_ok hids
    have hfirst : ∀ j ∈ (none : Option Nat), j < 0 := by simp
    have hlines := source_lines hstep hcases hfirst
    have hright := Token.source_newlineIndent (t := Token.rightSquare) rfl hindent
    have hbrackets : Token.leftSquare.source = "[" ∧ Token.rightSquare.source = "]" := ⟨rfl, rfl⟩
    refine ⟨_, bind_eq_ok.2 ⟨_, hentries, rfl⟩, ?_⟩
    rw [Node.source, DictionaryElement.tokens_list] at hlines
    simp only [Node.source, Node.tokens, Expr.tokens, List.map_cons, List.map_append, List.map_nil,
      String.join_cons, String.join_append, String.join_nil, hright, hbrackets, hlines]
    simp only [mappingText, List.isEmpty_cons, Bool.false_eq_true, if_false, List.map_cons,
      String.append_assoc, String.append_empty]

/-- `static var typeDisplayRepresentation: TypeDisplayRepresentation = "Name"` -/
def typeDisplayText (name : String) : String :=
  "static var typeDisplayRepresentation: TypeDisplayRepresentation = \"" ++ unticked name ++ "\""

/-- `static var caseDisplayRepresentations: [Name: DisplayRepresentation] = ` and the mapping -/
def caseDisplayText (name outer inner : String) (cases : List (List String)) : String :=
  "static var caseDisplayRepresentations: [" ++ name ++ ": DisplayRepresentation] = " ++
    mappingText outer inner cases

theorem source_bindingMember (l : Trivia) (name : Token) (type : TypeRef) (value : Expr) :
    Node.source (ConformanceExtension.bindingMember l (staticVar name type value)) =
      l.text ++ "static var " ++ name.source ++ ": " ++ Node.source type ++ "= " ++
        Node.source value := by
  have htokens : Node.tokens (ConformanceExtension.bindingMember l (staticVar name type value)) =
      (Token.ofKeyword "static").spaced.withLeading l :: (Token.ofKeyword "var").spaced ::
        name :: Token.colon.spaced :: (Node.tokens type ++ Token.equal.spaced ::
          Node.tokens value) := by
    rw [tokens_bindingMember]
    simp [staticVar, Node.tokens]
  have hstatic := Token.source_withLeading (t := (Token.ofKeyword "static").spaced) rfl l
  have hwords : (Token.ofKeyword "static").spaced.source ++ (Token.ofKeyword "var").spaced.source =
      "static var " := rfl
  have hsigns : Token.colon.spaced.source = ": " ∧ Token.equal.spaced.source = "= " := ⟨rfl, rfl⟩
  rw [Node.source, htokens]
  simp only [List.map_cons, List.map_append, String.join_cons, String.join_append, hstatic, hsigns,
    ← hwords, Node.source, String.append_assoc]

theorem source_typeDisplay {name : Token} (hname : isIdentifier name.text = true) (l : Trivia) :
    Node.source (ConformanceExtension.bindingMember l (typeDisplay name)) =
      l.text ++ typeDisplayText name.text := by
  have hlabel : Node.source (Expr.string (Token.stringLiteral name.name)) =
      "\"" ++ unticked name.text ++ "\"" := by
    exact (Node.source_eq_of_tokens rfl).trans (Token.source_stringLiteral hname)
  have htype : Node.source (TypeRef.identifier
      (Token.plain .identifier "TypeDisplayRepresentation").spaced) =
        "TypeDisplayRepresentation" ++ " " := by
    have hsource := Token.source_spaced_plain .identifier "TypeDisplayRepresentation"
    exact (Node.source_eq_of_tokens rfl).trans hsource
  have htext : typeDisplayText name.text = "static var " ++ "typeDisplayRepresentation" ++ ": " ++
      ("TypeDisplayRepresentation" ++ " ") ++ "= " ++ "\"" ++ unticked name.text ++ "\"" := by
    have hstart :
        ("static var typeDisplayRepresentation: TypeDisplayRepresentation = \"" : String) =
        "static var " ++ "typeDisplayRepresentation" ++ ": " ++
          ("TypeDisplayRepresentation" ++ " ") ++ "= " ++ "\"" := by
      simp
    exact congrArg (· ++ unticked name.text ++ "\"") hstart
  rw [typeDisplay, source_bindingMember, Token.source_plain, htype, hlabel, htext]
  simp only [String.append_assoc]

theorem source_caseDisplay {name : Token} {type : TypeRef} {value : Expr} {outer inner : String}
    {cases : List (List String)} (hvalue : Node.source value = mappingText outer inner cases)
    (htype : type = .dictionary Token.leftSquare (.identifier (.plain .identifier name.text))
      Token.colon.spaced (.identifier (.plain .identifier "DisplayRepresentation"))
      Token.rightSquare.spaced) (l : Trivia) :
    Node.source (ConformanceExtension.bindingMember l
      (staticVar (.plain .identifier "caseDisplayRepresentations") type value)) =
        l.text ++ caseDisplayText name.text outer inner cases := by
  have htypeText : Node.source type =
      "[" ++ name.text ++ ": " ++ "DisplayRepresentation" ++ "] " := by
    have hsigns : Token.leftSquare.source = "[" ∧ Token.colon.spaced.source = ": " ∧
        Token.rightSquare.spaced.source = "] " := ⟨rfl, rfl, rfl⟩
    rw [htype]
    simp only [Node.source, Node.tokens, TypeRef.tokens, List.map_cons, List.map_append,
      List.map_nil, String.join_cons, String.join_append, String.join_nil, Token.source_plain,
      hsigns, String.append_assoc, String.append_empty]
  have htext : caseDisplayText name.text outer inner cases = "static var " ++
      "caseDisplayRepresentations" ++ ": " ++ "[" ++ name.text ++ (": " ++
        "DisplayRepresentation" ++ "] " ++ "= ") ++ mappingText outer inner cases := by
    have hstart : ("static var caseDisplayRepresentations: [" : String) =
        "static var " ++ "caseDisplayRepresentations" ++ ": " ++ "[" := by
      simp
    have hend : (": DisplayRepresentation] = " : String) =
        ": " ++ "DisplayRepresentation" ++ "] " ++ "= " := by
      simp
    exact congrArg₂ (fun start finish ↦ start ++ name.text ++ finish ++
      mappingText outer inner cases) hstart hend
  rw [source_bindingMember, hvalue, Token.source_plain, htypeText, htext]
  simp only [String.append_assoc]

/-- Both members as they are printed, on whatever line they stand. -/
structure Members.Prints (ms : Members) (name outer inner : String) (cases : List (List String)) :
    Prop where
  typeDisplay (l : Trivia) :
    Node.source (ConformanceExtension.bindingMember l ms.typeDisplay) =
      l.text ++ typeDisplayText name
  caseDisplay (l : Trivia) :
    Node.source (ConformanceExtension.bindingMember l ms.caseDisplay) =
      l.text ++ caseDisplayText name outer inner cases

theorem exists_members {name : Token} (hname : isIdentifier name.text = true) {indent : String}
    (hindent : ∀ c ∈ indent.toList, Trivia.isIndentChar c = true) {cases : List (List String)}
    (hcases : ∀ names ∈ cases, names ≠ [] ∧ ∀ n ∈ names, isIdentifier n = true) :
    ∃ ms, members name (entriesFrom 0 cases) indent = .ok ms ∧
      ms.Prints name.text indent (indent ++ indentStep indent) cases := by
  obtain ⟨value, hvalue, hsource⟩ := exists_mapping hindent hcases
  have hcase := caseDisplay_eq_ok.2 ⟨value, hname, hvalue, rfl⟩
  refine ⟨_, bind_eq_ok.2 ⟨_, hcase, rfl⟩, ?_⟩
  constructor
  · exact source_typeDisplay hname
  · exact source_caseDisplay hsource rfl

end Display

end EnumForge
