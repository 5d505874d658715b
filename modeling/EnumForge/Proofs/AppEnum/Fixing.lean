import EnumForge.Proofs.AppEnum.Proposal
import EnumForge.Proofs.Diagnostic.Substitution
import EnumForge.Proofs.Grammar.Conservation

/-!
# Fixing a source

The fix-its of an expansion are a simultaneous substitution in the source.  A source is its items,
each with a declaration between trivia, and the end of the file.  A fix puts the proposed enum in
the place of each declaration that has one proposal and keeps every other character.  It is refused
exactly when an enum that can be replaced asks for it twice.
-/

namespace EnumForge

/-- The text of an item with another text in the place of its declaration. -/
def Member.sourceWith (m : Member) (text : String) : String :=
  (Node.leading m.decl).text ++ text ++ (Node.trailing m.decl).text ++ Node.source m.semicolon

theorem Member.source_eq_sourceWith (m : Member) :
    Node.source m = m.sourceWith (Node.trimmed m.decl) := by
  have htokens : Node.tokens m = Node.tokens m.decl ++ Node.tokens m.semicolon := by
    cases m
    rfl
  have hsource : Node.source m = Node.source m.decl ++ Node.source m.semicolon := by
    simp only [Node.source, htokens, List.map_append, String.join_append]
  rw [hsource, Node.source_eq_trimmed m.decl, Member.sourceWith]

/-- The text of a file with another text in the place of each declaration. -/
def SourceFile.sourceWith (f : SourceFile) (text : Decl → String) : String :=
  String.join (f.items.map fun m ↦ m.sourceWith (text m.decl)) ++ f.endOfFile.source

theorem Member.source_list (ms : List Member) :
    Node.source ms = String.join (ms.map Node.source) := by
  induction ms with
  | nil => rfl
  | cons m ms ih =>
    have hcons : Node.tokens (m :: ms) = Node.tokens m ++ Node.tokens ms := rfl
    rw [List.map_cons, String.join_cons, ← ih]
    simp only [Node.source, hcons, List.map_append, String.join_append]

theorem SourceFile.source_eq (f : SourceFile) :
    Node.source f = Node.source f.items ++ f.endOfFile.source := by
  have htokens : Node.tokens f = Node.tokens f.items ++ [f.endOfFile] := rfl
  simp [Node.source, htokens, String.join_append, String.join_cons]

theorem SourceFile.source_eq_sourceWith (f : SourceFile) :
    Node.source f = f.sourceWith Node.trimmed := by
  rw [f.source_eq, Member.source_list, SourceFile.sourceWith,
    List.map_congr_left fun m _ ↦ m.source_eq_sourceWith]

namespace Settings

/-- What stands in the place of a declaration after the fix. -/
def fixedText (s : Settings) (d : Decl) : String :=
  match s.proposals d with
  | [new] => Node.trimmed new
  | _ => Node.trimmed d

/-- An item as a slot for the replacements proposed for it. -/
def slot (s : Settings) (m : Member) : Slot where
  before := (Node.leading m.decl).text
  old := Node.trimmed m.decl
  after := (Node.trailing m.decl).text ++ Node.source m.semicolon
  proposals := (s.proposals m.decl).map Node.trimmed

theorem text_slot (s : Settings) (m : Member) : (s.slot m).text = Node.source m := by
  rw [m.source_eq_sourceWith]
  simp only [Slot.text, slot, Member.sourceWith, String.append_assoc]

theorem filled_slot (s : Settings) (m : Member) :
    (s.slot m).filled = m.sourceWith (s.fixedText m.decl) := by
  have hchoice : (s.slot m).choice = s.fixedText m.decl := by
    unfold Slot.choice fixedText slot
    rcases s.proposals m.decl with - | ⟨new, - | ⟨new', news⟩⟩ <;> rfl
  rw [Slot.filled, hchoice]
  simp only [slot, Member.sourceWith, String.append_assoc]

/-- The proposals are as many as the attributes that ask, or none. -/
theorem length_proposals (s : Settings) (d : NominalDecl) (a : Attribute) :
    (s.proposals (.enum d)).length =
      if (s.replacement a d).isOk then (triggers d).length else 0 := by
  simp only [proposals]
  induction triggers d with
  | nil => simp
  | cons b bs ih =>
    have hok : (s.replacement a d).isOk = (s.replacement b d).isOk :=
      EnumReplacement.isOk_replacement s.conformance s.insertMissingInheritance a b d
    rw [hok] at ih ⊢
    cases hb : s.replacement b d with
    | error e => simpa [hb, Except.toOption, Except.isOk, Except.toBool] using ih
    | ok new => simpa [hb, Except.toOption, Except.isOk, Except.toBool] using ih

theorem exists_enum_of_proposals_ne_nil {s : Settings} {d : Decl} (h : s.proposals d ≠ []) :
    ∃ e, d = .enum e := by
  cases d with
  | enum e => exact ⟨e, rfl⟩
  | nominal | extension | enumCase | binding | raw => simp [proposals] at h

theorem mapM_edits_of_span {d : Decl} {span : Text.Span} (h : Node.span d = some span)
    (news : List NominalDecl) :
    (news.map fun new ↦ Catalog.fixIt d (.enum new)).mapM FixIt.edits =
      .ok (news.map fun new ↦ [⟨span, Node.trimmed new⟩]) := by
  induction news with
  | nil => rfl
  | cons new news ih =>
    have hfirst : (Catalog.fixIt d (.enum new)).edits = .ok [⟨span, Node.trimmed new⟩] := by
      simp only [FixIt.edits, Catalog.fixIt, FixIt.edit, h, List.mapM_cons, List.mapM_nil]
      rfl
    rw [List.map_cons, List.mapM_cons, hfirst, ih]
    rfl

theorem tokens_enum_ne_nil (d : NominalDecl) : Node.tokens (Decl.enum d) ≠ [] := by
  obtain ⟨head, block⟩ := d
  have htokens : Node.tokens (Decl.enum ⟨head, block⟩) = Node.tokens head ++ block.tokens := rfl
  rw [htokens]
  intro hnil
  have hhead := (List.append_eq_nil_iff.1 hnil).1
  simp [Node.tokens] at hhead

/-- The fix-its of one placed item. -/
theorem mapM_edits_item (s : Settings) {n : Nat} {m : Member}
    (hplaced : Token.Placed n (Node.tokens m.decl)) :
    ((s.proposals m.decl).map fun new ↦ Catalog.fixIt m.decl (.enum new)).mapM FixIt.edits =
      .ok ((s.slot m).proposals.map fun text ↦
        [⟨⟨n + (s.slot m).before.utf8ByteSize,
          n + (s.slot m).before.utf8ByteSize + (s.slot m).old.utf8ByteSize⟩, text⟩]) := by
  by_cases hnil : s.proposals m.decl = []
  · simp only [slot, hnil, List.map_nil, List.mapM_nil]
    rfl
  · obtain ⟨e, he⟩ := exists_enum_of_proposals_ne_nil hnil
    have hspan := Node.span_of_placed hplaced (he ▸ tokens_enum_ne_nil e)
    rw [mapM_edits_of_span hspan]
    simp only [slot, List.map_map]
    rfl

/-- The fix-its of placed items stand for the edits of their slots. -/
theorem mapM_edits (s : Settings) {n : Nat} {ms : List Member}
    (hplaced : Token.Placed n (Member.listTokens ms)) :
    ∃ es, ((ms.flatMap fun m ↦ (s.proposals m.decl).map fun new ↦
        Catalog.fixIt m.decl (.enum new)).mapM FixIt.edits) = .ok es ∧
      es.flatten = Slot.edits n (ms.map s.slot) := by
  induction ms generalizing n with
  | nil => exact ⟨[], rfl, rfl⟩
  | cons m ms ih =>
    obtain ⟨hitem, hrest⟩ := Token.placed_append.1 hplaced
    have hsize : Text.byteSize (Token.listChars m.tokens) = (s.slot m).text.utf8ByteSize := by
      rw [s.text_slot, ← Text.byteSize_toList, Node.toList_source]
      rfl
    rw [hsize] at hrest
    obtain ⟨es, hes, hflat⟩ := ih hrest
    have hdecl : Token.Placed n (Node.tokens m.decl) := by
      cases m
      exact (Token.placed_append.1 hitem).1
    rw [List.flatMap_cons, List.mapM_append, s.mapM_edits_item hdecl, hes]
    refine ⟨_, rfl, ?_⟩
    rw [List.flatten_append, hflat, List.map_cons, Slot.edits, ← List.flatMap_def]
    exact congrArg (· ++ _) (List.flatMap_pure_eq_map _ _)

/-- An enum that can be replaced and asks for it at least twice. -/
def AsksTwice (s : Settings) (d : Decl) : Prop :=
  ∃ e, d = .enum e ∧ 2 ≤ (triggers e).length ∧ ∃ a ∈ triggers e, (s.replacement a e).isOk = true

theorem asksTwice_iff (s : Settings) (d : Decl) :
    s.AsksTwice d ↔ 2 ≤ (s.proposals d).length := by
  constructor
  · rintro ⟨e, rfl, htwo, a, -, hok⟩
    rwa [s.length_proposals e a, if_pos hok]
  · intro htwo
    have hne : s.proposals d ≠ [] := by
      intro hnil
      simp [hnil] at htwo
    obtain ⟨e, rfl⟩ := exists_enum_of_proposals_ne_nil hne
    obtain ⟨new, hnew⟩ := List.exists_mem_of_ne_nil _ hne
    obtain ⟨a, ha, hok⟩ := List.mem_filterMap.1 hnew
    have hok : (s.replacement a e).isOk = true := by
      cases hrep : s.replacement a e with
      | error err => simp [hrep, Except.toOption] at hok
      | ok r => rfl
    rw [s.length_proposals e a, if_pos hok] at htwo
    exact ⟨e, rfl, htwo, a, ha, hok⟩

end Settings

/-! ### Whole sources -/

/-- A top-level declaration covers the bytes of its trimmed text. -/
theorem span_of_parseSource {source : String} {file : SourceFile}
    (h : parseSource source = .ok file) {before after : List Member} {m : Member}
    (hitems : file.items = before ++ m :: after) (hne : Node.tokens m.decl ≠ []) :
    Node.span m.decl =
      some ⟨(Node.source before ++ (Node.leading m.decl).text).utf8ByteSize,
        (Node.source before ++ (Node.leading m.decl).text ++
          Node.trimmed m.decl).utf8ByteSize⟩ := by
  obtain ⟨t, ht, htokens⟩ := tokens_of_parseSource h
  have hplaced := TokenStream.placed_of_ofSource ht
  obtain ⟨d, semicolon⟩ := m
  have hsplit : Node.tokens file = Node.tokens before ++
      (Node.tokens d ++ (Node.tokens semicolon ++ (Node.tokens after ++ [file.endOfFile]))) := by
    have hfile : Node.tokens file = Node.tokens file.items ++ [file.endOfFile] := rfl
    have hlist : Node.tokens (before ++ ⟨d, semicolon⟩ :: after) = Node.tokens before ++
        ((Node.tokens d ++ Node.tokens semicolon) ++ Node.tokens after) :=
      List.flatMap_append
    rw [hfile, hitems, hlist]
    simp only [List.append_assoc]
  rw [← htokens, hsplit] at hplaced
  obtain ⟨-, hrest⟩ := Token.placed_append.1 hplaced
  obtain ⟨hdecl, -⟩ := Token.placed_append.1 hrest
  rw [Nat.zero_add, ← Node.toList_source, Text.byteSize_toList] at hdecl
  rw [Node.span_of_placed hdecl hne]
  simp only [String.utf8ByteSize_append]

theorem old_slot_ne_empty {source : String} {file : SourceFile}
    (h : parseSource source = .ok file) (s : Settings) :
    ∀ p ∈ file.items.map s.slot, p.proposals ≠ [] → p.old ≠ "" := by
  intro p hp hne
  obtain ⟨m, hm, rfl⟩ := List.mem_map.1 hp
  have hprops : s.proposals m.decl ≠ [] := by
    intro hnil
    exact hne (by simp [Settings.slot, hnil])
  obtain ⟨e, he⟩ := Settings.exists_enum_of_proposals_ne_nil hprops
  obtain ⟨t, ts, hts⟩ := List.exists_cons_of_ne_nil (Settings.tokens_enum_ne_nil e)
  rw [← he] at hts
  obtain ⟨stream, hstream, hread, -⟩ := parseSource_eq_ok.1 h
  have hmem : t ∈ stream.tokens := by
    have hfirst : t ∈ Node.tokens m.decl := by
      rw [hts]
      exact List.mem_cons_self
    rw [← hread.tokens_append, List.append_nil, ← Member.tokens_list]
    refine List.mem_flatMap.2 ⟨m, hm, ?_⟩
    cases m
    exact List.mem_append_left _ hfirst
  have htext := TokenStream.text_ne_empty_of_ofSource hstream hmem
  have htrim : (s.slot m).old = Node.trimmedTokens (t :: ts) := congrArg Node.trimmedTokens hts
  rw [htrim]
  exact Node.trimmedTokens_ne_empty htext ts

/-- The fix-its of an expansion are the edits of the items' slots. -/
theorem applyFixIts_ofFile {source : String} {file : SourceFile}
    (h : parseSource source = .ok file) (s : Settings) :
    applyFixIts source (Expansion.ofFile s.registry file).diagnostics =
      TextEdit.applyAll (Slot.edits 0 (file.items.map s.slot)) source := by
  obtain ⟨stream, hstream, htokens⟩ := tokens_of_parseSource h
  have hfile : Node.tokens file = Member.listTokens file.items ++ [file.endOfFile] := by
    rw [← Member.tokens_list]
    rfl
  have hplaced := TokenStream.placed_of_ofSource hstream
  rw [← htokens, hfile] at hplaced
  obtain ⟨es, hes, hflat⟩ := s.mapM_edits (Token.placed_append.1 hplaced).1
  rw [applyFixIts, Expansion.fixIts_ofFile, hes, ← hflat]
  rfl

theorem applyFixIts_ofFile_of_not_asksTwice {source : String} {file : SourceFile}
    (h : parseSource source = .ok file) (s : Settings)
    (hone : ¬∃ m ∈ file.items, s.AsksTwice m.decl) :
    applyFixIts source (Expansion.ofFile s.registry file).diagnostics =
      .ok (file.sourceWith s.fixedText) := by
  have hle : ∀ p ∈ file.items.map s.slot, p.proposals.length ≤ 1 := by
    intro p hp
    obtain ⟨m, hm, rfl⟩ := List.mem_map.1 hp
    have hnot : ¬s.AsksTwice m.decl := fun htwo ↦ hone ⟨m, hm, htwo⟩
    rw [s.asksTwice_iff] at hnot
    simp only [Settings.slot, List.length_map]
    omega
  have hsource : source = String.join ((file.items.map s.slot).map Slot.text) ++
      file.endOfFile.source := by
    have htext : Slot.text ∘ s.slot = fun m ↦ m.sourceWith (Node.trimmed m.decl) :=
      funext fun m ↦ (s.text_slot m).trans m.source_eq_sourceWith
    rw [List.map_map, htext]
    exact (source_of_parseSource h).symm.trans file.source_eq_sourceWith
  have happly := Slot.applyAll_edits_of_le_one hle (old_slot_ne_empty h s) file.endOfFile.source
  rw [← hsource] at happly
  have hfilled : Slot.filled ∘ s.slot = fun m ↦ m.sourceWith (s.fixedText m.decl) :=
    funext s.filled_slot
  rw [applyFixIts_ofFile h, happly, List.map_map, hfilled]
  rfl

theorem applyFixIts_ofFile_of_asksTwice {source : String} {file : SourceFile}
    (h : parseSource source = .ok file) {s : Settings} {m : Member} (hm : m ∈ file.items)
    (htwo : s.AsksTwice m.decl) :
    ∃ offset, applyFixIts source (Expansion.ofFile s.registry file).diagnostics =
      .error (.overlappingFixIts offset) := by
  rw [applyFixIts_ofFile h]
  refine Slot.applyAll_edits_of_two_le (List.mem_map_of_mem hm) ?_ (old_slot_ne_empty h s) source
  rw [s.asksTwice_iff] at htwo
  simpa [Settings.slot] using htwo

theorem expandSource_eq_ok {source : String} {r : Registry} {e : Expansion} :
    expandSource source r = .ok e ↔
      ∃ file, parseSource source = .ok file ∧ e = Expansion.ofFile r file := by
  unfold expandSource
  cases parseSource source with
  | error err => simp
  | ok file => simp [eq_comm]

/-- The fix-its of an expanded source always find their places.  They are refused exactly when an
enum that can be replaced asks for it twice.  Otherwise each enum with a proposal gives way to it,
on the bytes of its span, and every other character of the source stays. -/
theorem applyFixIts_expandSource {source : String} {s : Settings} {e : Expansion}
    (h : expandSource source s.registry = .ok e) :
    ∃ file, parseSource source = .ok file ∧ source = file.sourceWith Node.trimmed ∧
      (∀ before m after d, file.items = before ++ m :: after → m.decl = .enum d →
        Node.span m.decl =
          some ⟨(Node.source before ++ (Node.leading m.decl).text).utf8ByteSize,
            (Node.source before ++ (Node.leading m.decl).text ++
              Node.trimmed m.decl).utf8ByteSize⟩) ∧
      (∀ f ∈ e.diagnostics.flatMap Diagnostic.fixIts, ∀ r ∈ f.changes,
        ∃ m ∈ file.items, ∃ d, m.decl = .enum d ∧ r.old = m.decl) ∧
      (∀ id, applyFixIts source e.diagnostics ≠ .error (.missingSpan id)) ∧
      ((∃ offset, applyFixIts source e.diagnostics = .error (.overlappingFixIts offset)) ↔
        ∃ m ∈ file.items, s.AsksTwice m.decl) ∧
      ((¬∃ m ∈ file.items, s.AsksTwice m.decl) →
        applyFixIts source e.diagnostics = .ok (file.sourceWith s.fixedText)) := by
  obtain ⟨file, hparse, rfl⟩ := expandSource_eq_ok.1 h
  have hfixed := applyFixIts_ofFile_of_not_asksTwice hparse s
  refine ⟨file, hparse, ?_, ?_, ?_, ?_, ?_, hfixed⟩
  · exact (source_of_parseSource hparse).symm.trans file.source_eq_sourceWith
  · intro before m after d hitems hd
    exact span_of_parseSource hparse hitems (hd ▸ Settings.tokens_enum_ne_nil d)
  · intro f hf r hr
    rw [Expansion.fixIts_ofFile] at hf
    obtain ⟨m, hm, hf⟩ := List.mem_flatMap.1 hf
    obtain ⟨new, hnew, rfl⟩ := List.mem_map.1 hf
    obtain ⟨d, hd⟩ := Settings.exists_enum_of_proposals_ne_nil (List.ne_nil_of_mem hnew)
    rw [List.mem_singleton.1 hr]
    exact ⟨m, hm, d, hd, rfl⟩
  · intro id hmissing
    by_cases htwo : ∃ m ∈ file.items, s.AsksTwice m.decl
    · obtain ⟨m, hm, htwo⟩ := htwo
      obtain ⟨offset, herror⟩ := applyFixIts_ofFile_of_asksTwice hparse hm htwo
      simp [hmissing] at herror
    · simp [hfixed htwo] at hmissing
  · constructor
    · rintro ⟨offset, herror⟩
      by_contra hone
      simp [hfixed hone] at herror
    · rintro ⟨m, hm, htwo⟩
      exact applyFixIts_ofFile_of_asksTwice hparse hm htwo

/-- An enum with a proposal before one that is nested and has none. -/
def mixedSource : String :=
  "// a\n@AppEnumGenFixIt enum A \x7b case a \x7d; " ++
    "struct S \x7b @AppEnumGenFixIt enum B \x7b \x7d \x7d // b"

theorem applyFixIts_mixedSource :
    ∃ e file, expandSource mixedSource (Settings.registry {}) = .ok e ∧
      parseSource mixedSource = .ok file ∧
      applyFixIts mixedSource e.diagnostics = .ok (file.sourceWith (Settings.fixedText {})) := by
  have hone : ((parseSource mixedSource).toOption.any fun file ↦ file.items.all fun m ↦
      (Settings.proposals {} m.decl).length ≤ 1) = true := by
    decide +kernel
  cases hparse : parseSource mixedSource with
  | error err => simp [hparse, Except.toOption] at hone
  | ok file =>
    have hexpand : expandSource mixedSource (Settings.registry {}) =
        .ok (Expansion.ofFile (Settings.registry {}) file) :=
      expandSource_eq_ok.2 ⟨file, hparse, rfl⟩
    obtain ⟨file', hparse', -, -, -, -, -, hfixed⟩ := applyFixIts_expandSource hexpand
    obtain rfl : file = file' := by simpa [hparse] using hparse'
    refine ⟨_, file, hexpand, rfl, hfixed ?_⟩
    rintro ⟨m, hm, htwo⟩
    rw [Settings.asksTwice_iff] at htwo
    simp only [hparse, Except.toOption, Option.any_some, List.all_eq_true,
      decide_eq_true_eq] at hone
    have hle := hone m hm
    omega

end EnumForge
