import EnumForge.Proofs.AppEnum.Keeping
import EnumForge.Proofs.Trivia.Merging

/-!
# The comments of a replacement

A replacement trims blanks, but at three places it puts new trivia in the place of the old: before
the token that moves to the line after the attribute, behind the end of the inheritance clause or of
the name, and before the closing brace.  What stood there is lost, comments included; all other
comments of what is kept stay, in their order.
-/

namespace EnumForge

open Node (HasShape)

/-! ### Lists that lose elements -/

/-- `left` is what remains of `kept` without the elements of `lost`, all in their order. -/
inductive Loses {α : Type} : List α → List α → List α → Prop where
  | nil : Loses [] [] []
  | keep (a : α) {kept left lost : List α} (h : Loses kept left lost) :
      Loses (a :: kept) (a :: left) lost
  | lose (a : α) {kept left lost : List α} (h : Loses kept left lost) :
      Loses (a :: kept) left (a :: lost)

namespace Loses

variable {α β : Type} {kept left lost kept' left' lost' : List α}

theorem refl (xs : List α) : Loses xs xs [] := by
  induction xs with
  | nil => exact .nil
  | cons x xs ih => exact .keep x ih

theorem all (xs : List α) : Loses xs [] xs := by
  induction xs with
  | nil => exact .nil
  | cons x xs ih => exact .lose x ih

theorem append (h : Loses kept left lost) (h' : Loses kept' left' lost') :
    Loses (kept ++ kept') (left ++ left') (lost ++ lost') := by
  induction h with
  | nil => exact h'
  | keep a _ ih => exact .keep a ih
  | lose a _ ih => exact .lose a ih

theorem append_left (xs : List α) (h : Loses kept left lost) :
    Loses (xs ++ kept) (xs ++ left) lost := (refl xs).append h

theorem append_right (h : Loses kept left lost) (xs : List α) :
    Loses (kept ++ xs) (left ++ xs) lost := by
  have happend := h.append (refl xs)
  rwa [List.append_nil] at happend

theorem flatMap {f g l : β → List α} {bs : List β} (h : ∀ b ∈ bs, Loses (f b) (g b) (l b)) :
    Loses (bs.flatMap f) (bs.flatMap g) (bs.flatMap l) := by
  induction bs with
  | nil => exact .nil
  | cons b bs ih =>
    rw [List.forall_mem_cons] at h
    exact h.1.append (ih h.2)

theorem sublist (h : Loses kept left lost) : left.Sublist kept := by
  induction h with
  | nil => exact .slnil
  | keep a _ ih => exact ih.cons_cons a
  | lose a _ ih => exact ih.cons a

theorem length_eq (h : Loses kept left lost) : kept.length = left.length + lost.length := by
  induction h with
  | nil => rfl
  | keep _ _ ih | lose _ _ ih => simp only [List.length_cons, ih]; omega

/-- All that was kept is left only if nothing was lost. -/
theorem sublist_iff (h : Loses kept left lost) : kept.Sublist left ↔ lost = [] := by
  have hlength := h.length_eq
  constructor
  · intro hsub
    have hle := hsub.length_le
    exact List.eq_nil_of_length_eq_zero (by omega)
  · rintro rfl
    rw [h.sublist.eq_of_length hlength.symm]

end Loses

/-! ### Comments -/

namespace Trivia

/-- The comments among the pieces. -/
def comments (t : Trivia) : List TriviaPiece := t.pieces.filter TriviaPiece.isComment

@[simp] theorem comments_empty : empty.comments = [] := rfl

@[simp] theorem comments_spaces (n : Nat) : (spaces n).comments = [] := rfl

@[simp] theorem comments_newlinesIndent (n : Nat) (indent : String) :
    (newlinesIndent n indent).comments = [] := by
  obtain ⟨blanks, hbreaks, -⟩ := exists_breaks_newlinesIndent n indent
  rw [comments, hbreaks.pieces, List.filter_eq_nil_iff]
  intro p hp
  rcases List.mem_cons.1 hp with rfl | hp
  · simp [TriviaPiece.isComment]
  · have hindent := hbreaks.isIndent p hp
    cases p <;> simp_all [TriviaPiece.isIndent, TriviaPiece.isComment]

theorem comments_newlineIndent (indent : String) : (newlineIndent indent).comments = [] :=
  comments_newlinesIndent 1 indent

/-- Only blanks are trimmed. -/
theorem comments_trimmed (t : Trivia) : t.trimmed.comments = t.comments := by
  have hsplit := List.takeWhile_append_dropWhile (p := TriviaPiece.isBlank) (l := t.pieces.reverse)
  have hblank :
      (t.pieces.reverse.takeWhile TriviaPiece.isBlank).filter TriviaPiece.isComment = [] := by
    rw [List.filter_eq_nil_iff]
    intro p hp
    have hp' := List.mem_takeWhile_imp hp
    cases p <;> simp_all [TriviaPiece.isBlank, TriviaPiece.isComment]
  have hfilter := congrArg (List.filter TriviaPiece.isComment) hsplit
  rw [List.filter_append, hblank, List.nil_append, List.filter_reverse] at hfilter
  rw [comments, trimmed, List.filter_reverse, hfilter, List.reverse_reverse]
  rfl

end Trivia

namespace Token

/-- The comments around a token. -/
def comments (t : Token) : List TriviaPiece := t.leading.comments ++ t.trailing.comments

@[simp] theorem comments_plain (kind : TokenKind) (text : String) :
    (plain kind text).comments = [] := rfl

@[simp] theorem comments_withLeading (t : Token) (trivia : Trivia) :
    (t.withLeading trivia).comments = trivia.comments ++ t.trailing.comments := rfl

@[simp] theorem comments_withTrailing (t : Token) (trivia : Trivia) :
    (t.withTrailing trivia).comments = t.leading.comments ++ trivia.comments := rfl

@[simp] theorem leading_plain (kind : TokenKind) (text : String) :
    (plain kind text).leading = .empty := rfl

@[simp] theorem trailing_spaced (t : Token) : t.spaced.trailing = Trivia.spaces 1 := rfl

@[simp] theorem comments_spaced (t : Token) : t.spaced.comments = t.leading.comments := by
  simp [spaced]

/-- The comments that are lost when the token moves to a line of its own. -/
def movedComments (t : Token) : List TriviaPiece :=
  if t.startsLine then [] else t.leading.comments

theorem loses_onOwnLine (t : Token) (indent : String) :
    Loses t.comments (t.onOwnLine indent).comments t.movedComments := by
  unfold onOwnLine movedComments
  split
  · exact .refl _
  · rw [comments_withLeading, Trivia.comments_newlineIndent]
    exact (Loses.all t.leading.comments).append_right t.trailing.comments

theorem loses_withTrailing (t : Token) :
    Loses t.comments (t.withTrailing .empty).comments t.trailing.comments := by
  rw [comments_withTrailing, Trivia.comments_empty]
  exact (Loses.refl t.leading.comments).append (.all t.trailing.comments)

end Token

namespace Node

variable {α : Type} [Node α]

/-- The comments around the tokens, in their order. -/
def comments (a : α) : List TriviaPiece := (tokens a).flatMap Token.comments

theorem comments_list (as : List α) : comments as = as.flatMap comments := by
  rw [comments]
  exact List.flatMap_assoc

theorem comments_append (as bs : List α) : comments (as ++ bs) = comments as ++ comments bs := by
  rw [comments_list, List.flatMap_append, ← comments_list, ← comments_list]

theorem comments_modify {f : α → α} (h : ∀ a, comments (f a) = comments a) (i : Nat)
    (as : List α) : comments (as.modify i f) = comments as := by
  rw [comments_list, comments_list]
  induction as generalizing i with
  | nil => simp
  | cons a as ih => cases i <;> simp [h, ih]

theorem HasShape.comments_trimTrailing {a : α} (h : HasShape a) :
    comments (trimTrailing a) = comments a := by
  obtain htokens | ⟨ts, z, htokens⟩ := List.eq_nil_or_concat' (tokens a)
  · simp [comments, trimTrailing, h.tokens_setTrailing, htokens]
  · have htrailing : trailing a = z.trailing := by simp [trailing, htokens]
    rw [comments, trimTrailing, h.tokens_setTrailing_concat _ htokens, comments, htokens, htrailing,
      List.flatMap_append, List.flatMap_append, List.flatMap_singleton, List.flatMap_singleton,
      Token.comments_withTrailing, Trivia.comments_trimmed]
    rfl

theorem HasShape.loses_setTrailing {a : α} (h : HasShape a) :
    Loses (comments a) (comments (setTrailing .empty a)) (trailing a).comments := by
  obtain htokens | ⟨ts, z, htokens⟩ := List.eq_nil_or_concat' (tokens a)
  · simp [comments, trailing, h.tokens_setTrailing, htokens, Loses.nil]
  · have htrailing : trailing a = z.trailing := by simp [trailing, htokens]
    rw [comments, comments, h.tokens_setTrailing_concat _ htokens, htokens, htrailing,
      List.flatMap_append, List.flatMap_append, List.flatMap_singleton, List.flatMap_singleton]
    exact z.loses_withTrailing.append_left (ts.flatMap Token.comments)

end Node

/-! ### Generated members -/

namespace Display

theorem comments_separator (e next : CaseEntry) : (separator e next).comments = [] := by
  unfold separator
  split <;> rfl

theorem comments_element {indent : String} {startsLine : Bool} {e : CaseEntry}
    {next : Option CaseEntry} {d : DictionaryElement}
    (h : element indent startsLine e next = .ok d) : Node.comments d = [] := by
  obtain ⟨-, rfl⟩ := element_eq_ok.1 h
  have hperiod : (if startsLine then Token.period.withLeading (Trivia.newlineIndent indent)
      else Token.period).comments = [] := by
    split
    · rw [Token.comments_withLeading, Trivia.comments_newlineIndent]
      rfl
    · rfl
  have hcomma : Node.comments (next.map (separator e)) = [] := by
    cases next with
    | none => rfl
    | some next => simpa [Node.comments, Node.tokens] using comments_separator e next
  have hentry (period name colon label : Token) (comma : Option Token) :
      Node.comments (DictionaryElement.mk (.implicitMember period name) colon (.string label)
        comma) = period.comments ++ name.comments ++ colon.comments ++ label.comments ++
          Node.comments comma := by
    simp [Node.comments, Node.tokens, DictionaryElement.tokens, Expr.tokens]
  rw [hentry, hperiod, hcomma]
  rfl

theorem comments_elements {indent : String} {previous : Option CaseEntry} {es : List CaseEntry}
    {ds : List DictionaryElement} (h : elements indent previous es = .ok ds) :
    Node.comments ds = [] := by
  induction es generalizing previous ds with
  | nil =>
    simp only [elements, pure, Except.pure, Except.ok.injEq] at h
    rw [← h]
    rfl
  | cons e es ih =>
    obtain ⟨d, ds', hd, hds, rfl⟩ := elements_cons_eq_ok.1 h
    rw [Node.comments_list, List.flatMap_cons, ← Node.comments_list, comments_element hd, ih hds]
    rfl

theorem comments_mapping {cases : List CaseEntry} {indent : String} {value : Expr}
    (h : mapping cases indent = .ok value) : Node.comments value = [] := by
  cases cases with
  | nil =>
    obtain rfl : Expr.emptyDictionary Token.leftSquare Token.colon Token.rightSquare = value :=
      Except.ok.inj h
    rfl
  | cons e es =>
    obtain ⟨ds, hds, h⟩ := bind_eq_ok.1 h
    simp only [pure, Except.pure, Except.ok.injEq] at h
    subst h
    have hinner : (DictionaryElement.listTokens ds).flatMap Token.comments = [] := by
      rw [← DictionaryElement.tokens_list]
      exact comments_elements hds
    have hvalue (left right : Token) : Node.comments (Expr.dictionary left ds right) =
        left.comments ++ right.comments := by
      simp [Node.comments, Node.tokens, Expr.tokens, hinner]
    rw [hvalue, Token.comments_withLeading, Trivia.comments_newlineIndent]
    rfl

theorem comments_staticVar (n : Nat) (inner : String) (name : Token) (type : TypeRef)
    (value : Expr) :
    Node.comments (ConformanceExtension.bindingMember (Trivia.newlinesIndent n inner)
      (staticVar name type value)) =
        name.comments ++ (Node.comments type ++ Node.comments value) := by
  rw [Node.comments, tokens_staticVar]
  simp [Token.ofKeyword, Token.colon, Token.equal, Node.comments, Node.tokens]

/-- The display members bring no comments. -/
theorem comments_members {d : NominalDecl} {indent : String} {ms : Members}
    (h : membersOf d indent = .ok ms) (n : Nat) (inner : String) :
    Node.comments ([ms.typeDisplay, ms.caseDisplay].map
      (ConformanceExtension.bindingMember (Trivia.newlinesIndent n inner))) = [] := by
  obtain ⟨b, hb, rfl⟩ := membersOf_eq_ok.1 h
  obtain ⟨value, -, hvalue, rfl⟩ := caseDisplay_eq_ok.1 hb
  rw [Node.comments_list, List.map_cons, List.map_cons, List.flatMap_cons, List.flatMap_cons,
    typeDisplay, comments_staticVar, comments_staticVar, comments_mapping hvalue]
  rfl

end Display

namespace NominalDecl

/-- The declaration with no members but its cases. -/
def kept (d : NominalDecl) : NominalDecl :=
  { d with block.members := d.block.members.filter (·.decl.isEnumCase) }

theorem comments_eq (d : NominalDecl) : Node.comments d =
    Node.comments d.front ++ (d.head.name.comments ++ Node.comments d.head.generics ++
      Node.comments d.head.inheritance ++ (Node.comments d.head.whereClause ++
        d.block.leftBrace.comments ++ Node.comments d.block.members ++
          d.block.rightBrace.comments)) := by
  rw [Node.comments, d.tokens_eq, d.block.tokens_eq, ← Member.tokens_list]
  simp [Node.comments, Node.tokens, front]

end NominalDecl

namespace EnumReplacement

variable {conformance : String} {insertMissing : Bool} {a : Attribute} {old new : NominalDecl}

/-! ### The attribute -/

theorem comments_commentOut (a : Attribute) : Node.comments (commentOut a) = Node.comments a := by
  rw [commentOut, (Attribute.hasShape _).comments_trimTrailing]
  rfl

/-- The token behind the `i`-th attribute. -/
def tokenBehind? (i : Nat) (d : NominalDecl) : Option Token := (Node.tokens d)[attributeEnd i d]?

theorem loses_disabledFront {before after : List Attribute}
    (h : old.head.preamble.attributes = before ++ a :: after) :
    Loses (Node.comments old.front) (Node.comments (disabledFront before after a old))
      (((tokenBehind? before.length old).map Token.movedComments).getD []) := by
  have hold : Node.comments old.front = Node.comments (before ++ [a]) ++
      Node.comments (after, old.head.preamble.modifiers, old.head.keyword) := by
    simp [Node.comments, NominalDecl.front, Node.tokens, h]
  have hcomment : Node.comments (before ++ [commentOut a]) = Node.comments (before ++ [a]) := by
    rw [Node.comments_append, Node.comments_append, Node.comments_list [commentOut a],
      Node.comments_list [a], List.flatMap_singleton, List.flatMap_singleton, comments_commentOut]
  have hnew : Node.comments (disabledFront before after a old) = Node.comments (before ++ [a]) ++
      Node.comments (moved a after old) := by
    rw [Node.comments, disabledFront, tokens_frontOf, ← hcomment]
    exact List.flatMap_append
  rw [hold, hnew, tokenBehind?, getElem?_attributeEnd h]
  refine Loses.append_left _ ?_
  rw [moved, Node.comments, Node.comments, (hasShape_rest _).tokens_modifyToken]
  cases Node.tokens (after, old.head.preamble.modifiers, old.head.keyword) with
  | nil => exact .nil
  | cons t ts =>
    exact (t.loses_onOwnLine (Node.indentation a)).append_right (ts.flatMap Token.comments)

/-! ### The inheritance clause -/

/-- The comments that are lost when the entry gets a comma. -/
def entryLoss (i : InheritedType) : List TriviaPiece :=
  if i.comma.isSome then [] else (Node.trailing i.type).comments

theorem loses_withComma (i : InheritedType) :
    Loses (Node.comments i) (Node.comments (withComma i)) (entryLoss i) := by
  obtain ⟨type, comma⟩ := i
  cases comma with
  | some t => exact .refl _
  | none =>
    have hold : Node.comments (InheritedType.mk type none) = Node.comments type := by
      simp [Node.comments, Node.tokens]
    have hnew : Node.comments (withComma ⟨type, none⟩) =
        Node.comments (Node.setTrailing .empty type) := by
      simp [withComma, Node.comments, Node.tokens, Token.comma]
    rw [hold, hnew]
    exact type.hasShape.loses_setTrailing

/-- The comments that are lost when the conformance comes into the head. -/
def headLoss (conformance : String) (insertMissing : Bool) (h : NominalHead) : List TriviaPiece :=
  match h.inheritance with
  | some c => if c.contains conformance then [] else c.types.flatMap entryLoss
  | none => if insertMissing then h.nameEnd.trailing.comments else []

theorem loses_addConformance (c : InheritanceClause) (conformance : String) :
    Loses (Node.comments c) (Node.comments (addConformance c (.plain .identifier conformance)))
      (c.types.flatMap entryLoss) := by
  have hclause (types : List InheritedType) :
      Node.comments (InheritanceClause.mk c.colon types) =
        c.colon.comments ++ types.flatMap Node.comments := by
    rw [← Node.comments_list]
    rfl
  have hentry : Node.comments (InheritedType.mk (.identifier
      ((Token.plain .identifier conformance).withLeading (Trivia.spaces 1)).spaced) none) = [] :=
    rfl
  have hold : Node.comments c = c.colon.comments ++ c.types.flatMap Node.comments :=
    hclause c.types
  have hentries : Loses (c.types.flatMap Node.comments)
      (c.types.flatMap fun i ↦ Node.comments (withComma i)) (c.types.flatMap entryLoss) :=
    .flatMap fun i _ ↦ loses_withComma i
  rw [hold, addConformance, hclause, List.flatMap_append, List.flatMap_map, List.flatMap_singleton,
    hentry, List.append_nil]
  exact hentries.append_left c.colon.comments

theorem loses_modifyNameEnd (h : NominalHead) :
    Loses (h.name.comments ++ Node.comments h.generics)
      ((h.modifyNameEnd (·.withTrailing .empty)).name.comments ++
        Node.comments (h.modifyNameEnd (·.withTrailing .empty)).generics)
      h.nameEnd.trailing.comments := by
  obtain ⟨ts, hold, hnew⟩ := tokens_modifyNameEnd h (·.withTrailing .empty)
  have hcomments (name : Token) (generics : Option (List Token)) :
      name.comments ++ Node.comments generics =
        (name :: Node.tokens generics).flatMap Token.comments := rfl
  rw [hcomments, hcomments, hold, hnew, List.flatMap_append, List.flatMap_append,
    List.flatMap_singleton, List.flatMap_singleton]
  exact h.nameEnd.loses_withTrailing.append_left _

theorem Conforms.loses {h h' : NominalHead} (hconforms : Conforms conformance insertMissing h h') :
    Loses (h.name.comments ++ Node.comments h.generics ++ Node.comments h.inheritance)
      (h'.name.comments ++ Node.comments h'.generics ++ Node.comments h'.inheritance)
      (headLoss conformance insertMissing h) := by
  cases hconforms with
  | listed hclause hlisted =>
    rw [headLoss, hclause]
    simp only [hlisted, if_true]
    exact .refl _
  | added hclause hlisted hid =>
    rw [headLoss, hclause]
    simp only [hlisted, Bool.false_eq_true, if_false]
    exact (loses_addConformance _ conformance).append_left _
  | absent hclause hinsert =>
    rw [headLoss, hclause]
    simp only [hinsert, Bool.false_eq_true, if_false]
    exact .refl _
  | inserted hclause hinsert hid =>
    rw [headLoss, hclause]
    simp only [hinsert, if_true]
    have hsole : Node.comments (some (ConformanceExtension.soleConformance
        (.plain .identifier conformance))) = [] := rfl
    rw [hsole]
    exact (loses_modifyNameEnd h).append_right []

/-! ### The whole enum -/

/-- The comments of what is kept are found again in their order. -/
def KeepsComments (old new : NominalDecl) : Prop :=
  (Node.comments old.kept).Sublist (Node.comments new)

/-- The comments that a replacement loses, where the `i`-th attribute is disabled. -/
def lostComments (conformance : String) (insertMissing : Bool) (i : Nat) (d : NominalDecl) :
    List TriviaPiece :=
  ((tokenBehind? i d).map Token.movedComments).getD [] ++
    (headLoss conformance insertMissing d.head ++ d.block.rightBrace.movedComments)

theorem comments_rebuiltMembers {ms : List Member} {indent : String} {display : Display.Members}
    (h : Display.membersOf old indent = .ok display) :
    Node.comments (rebuiltMembers ms indent display) =
      Node.comments (ms.filter (·.decl.isEnumCase)) := by
  have htrim := Node.comments_modify (fun m : Member ↦ m.hasShape.comments_trimTrailing)
    ((ms.filter (·.decl.isEnumCase)).length - 1) (ms.filter (·.decl.isEnumCase))
  rw [rebuiltMembers, Node.comments_append, Display.comments_members h 2 indent, List.append_nil]
  exact htrim

theorem loses_of_proposes (ha : a ∈ old.head.preamble.attributes)
    (h : Proposes conformance insertMissing a old new) :
    Loses (Node.comments old.kept) (Node.comments new)
      (lostComments conformance insertMissing (old.head.preamble.attributes.idxOf a) old) := by
  obtain ⟨before, after, display, hsplit, -, hidx, hhead, hdisplay, hblock⟩ :=
    steps_of_proposes ha h
  have hsame := hhead.sameHead
  have hfront : new.front = disabledFront before after a old :=
    Prod.ext hsame.preamble hsame.keyword
  have hwhere : new.head.whereClause = old.head.whereClause := hsame.whereClause
  rw [hidx, lostComments, NominalDecl.comments_eq, NominalDecl.comments_eq new, hfront, hwhere,
    hblock, comments_rebuiltMembers hdisplay]
  refine (loses_disabledFront hsplit).append (hhead.loses.append ?_)
  exact (old.block.rightBrace.loses_onOwnLine _).append_left _

theorem keepsComments_iff_of_proposes (ha : a ∈ old.head.preamble.attributes)
    (h : Proposes conformance insertMissing a old new) :
    KeepsComments old new ↔
      lostComments conformance insertMissing (old.head.preamble.attributes.idxOf a) old = [] :=
  (loses_of_proposes ha h).sublist_iff

/-- Comments at all places where they stay, and one on a member that is dropped. -/
def annotatedEnum : String :=
  "// a\n@objc /* b */ @AppEnumGenFixIt // c\n/* d */ enum A /* e */: /* f */ String /* g */, " ++
    "Codable \x7b // h\n    case a /* i */\n    var x = 1 // j\n    case b // k\n    // l\n\x7d"

theorem keepsComments_annotatedEnum : ∃ old a new, parseDecl annotatedEnum = .ok (.enum old) ∧
    Proposes "AppEnum" false a old new ∧ (Node.comments old.kept).length = 11 ∧
    KeepsComments old new := by
  have hrun : ((proposal? "AppEnum" false 1 annotatedEnum).any fun p ↦
      (Node.comments p.1.kept).length == 11 && lostComments "AppEnum" false
        (p.1.head.preamble.attributes.idxOf p.2.1) p.1 == []) = true := by
    decide +kernel
  obtain ⟨⟨old, a, new⟩, hproposal, hlost⟩ := (Option.any_eq_true _ _).1 hrun
  simp only [Bool.and_eq_true, beq_iff_eq] at hlost
  obtain ⟨hparse, ha, hproposes⟩ := of_proposal? hproposal
  exact ⟨old, a, new, hparse, hproposes, hlost.1,
    (keepsComments_iff_of_proposes (List.mem_of_getElem? ha) hproposes).2 hlost.2⟩

/-- A comment behind the last type of the clause. -/
def remarkedEnum : String :=
  "@AppEnumGenFixIt\nenum A: String /* raw */ \x7b\n    case a\n\x7d"

theorem not_keepsComments_remarkedEnum : ∃ old a new,
    parseDecl remarkedEnum = .ok (.enum old) ∧ a ∈ old.head.preamble.attributes ∧
      Proposes "AppEnum" false a old new ∧ ¬KeepsComments old new := by
  have hrun : ((proposal? "AppEnum" false 0 remarkedEnum).any fun p ↦
      !(Node.comments p.1.kept).isSublist (Node.comments p.2.2)) = true := by
    decide +kernel
  obtain ⟨⟨old, a, new⟩, hproposal, hlost⟩ := (Option.any_eq_true _ _).1 hrun
  obtain ⟨hparse, ha, hproposes⟩ := of_proposal? hproposal
  refine ⟨old, a, new, hparse, List.mem_of_getElem? ha, hproposes, fun hkeeps ↦ ?_⟩
  rw [List.isSublist_iff_sublist.2 hkeeps] at hlost
  exact Bool.noConfusion hlost

end EnumReplacement

end EnumForge
