import EnumForge.Expansion.Attachment
import EnumForge.Proofs.Tree.Walk

/-!
# Removed attributes

Taking attributes off one after the other comes to one pass over them: an attribute that goes
leaves its leading trivia to the token after it, if that one starts a line, and all other tokens
stay.  What an attribute leaves behind may be passed on by the next one.
-/

namespace EnumForge

open Node (mapTokens)

/-- The token takes over the trivia of what stood before it if it starts a line. -/
def Token.inheriting (leading : Trivia) (t : Token) : Token :=
  if t.startsLine then t.withLeading leading else t

/-- The token without the trivia before it. -/
def Token.unled (t : Token) : Token := t.withLeading .empty

theorem Token.unled_inheriting (leading : Trivia) (t : Token) :
    (t.inheriting leading).unled = t.unled := by
  unfold inheriting
  split <;> rfl

theorem Token.inheriting_inheriting (l l' : Trivia) (t : Token) :
    (t.inheriting l').inheriting l =
      t.inheriting (if l'.hasNewline then l else l') := by
  unfold inheriting
  by_cases ht : t.startsLine = true
  · rw [if_pos ht, if_pos ht]
    have hstart : (t.withLeading l').startsLine = l'.hasNewline := rfl
    rw [hstart]
    split <;> rfl
  · rw [if_neg ht, if_neg ht, if_neg ht]

namespace Attribute

def inheriting (leading : Trivia) (a : Attribute) : Attribute :=
  { a with atSign := a.atSign.inheriting leading }

theorem tokens_inheriting (leading : Trivia) (a : Attribute) :
    Node.tokens (a.inheriting leading) = (Node.tokens a).modifyHead (·.inheriting leading) := rfl

theorem leading_eq (a : Attribute) : Node.leading a = a.atSign.leading := rfl

end Attribute

/-- The tokens of attributes and of what stands behind them, without the attributes whose name
passes the test. -/
def Attribute.strip (test : String → Bool) : List Attribute → List Token → List Token
  | [], rest => rest
  | a :: as, rest =>
    if test a.name then (strip test as rest).modifyHead (·.inheriting (Node.leading a))
    else Node.tokens a ++ strip test as rest

namespace Attribute

variable {test : String → Bool}

theorem strip_of_pos {a : Attribute} (h : test a.name = true) (as : List Attribute)
    (rest : List Token) : strip test (a :: as) rest =
      (strip test as rest).modifyHead (·.inheriting (Node.leading a)) := if_pos h

theorem strip_append {as : List Attribute} (h : ∀ a ∈ as, test a.name = false)
    (bs : List Attribute) (rest : List Token) :
    strip test (as ++ bs) rest = Node.tokens as ++ strip test bs rest := by
  induction as with
  | nil => rfl
  | cons a as ih =>
    have hcons : Node.tokens (a :: as) = Node.tokens a ++ Node.tokens as := rfl
    rw [List.cons_append, strip, if_neg (by simp [h a (by simp)]),
      ih fun b hb ↦ h b (List.mem_cons_of_mem a hb), hcons, List.append_assoc]

theorem strip_of_none {as : List Attribute} (h : ∀ a ∈ as, test a.name = false)
    (rest : List Token) : strip test as rest = Node.tokens as ++ rest := by
  have happ := strip_append h [] rest
  rwa [List.append_nil] at happ

/-- Only leading trivia changes. -/
theorem map_unled_strip (as : List Attribute) (rest : List Token) :
    (strip test as rest).map Token.unled =
      (Node.tokens (as.filter fun a ↦ !test a.name) ++ rest).map Token.unled := by
  induction as with
  | nil => rfl
  | cons a as ih =>
    have hhead (l : Trivia) (ts : List Token) :
        (ts.modifyHead (·.inheriting l)).map Token.unled = ts.map Token.unled := by
      cases ts with
      | nil => rfl
      | cons t ts => simp [Token.unled_inheriting]
    rw [strip]
    cases ha : test a.name with
    | true => rw [if_pos rfl, hhead, ih, List.filter_cons_of_neg (by simp [ha])]
    | false =>
      have hcons (as : List Attribute) : Node.tokens (a :: as) = Node.tokens a ++ Node.tokens as :=
        rfl
      rw [if_neg (by simp), List.map_append, ih, List.filter_cons_of_pos (by simp [ha]), hcons]
      simp only [List.map_append, List.append_assoc]

/-- What an attribute leaves to the next one is passed on if that one goes too. -/
theorem strip_inheriting (l : Trivia) (b : Attribute) (bs : List Attribute) (rest : List Token) :
    strip test (b.inheriting l :: bs) rest =
      (strip test (b :: bs) rest).modifyHead (·.inheriting l) := by
  have hname : (b.inheriting l).name = b.name := rfl
  rw [strip, strip, hname]
  split
  · rw [List.modifyHead_modifyHead]
    congr 1
    funext t
    rw [Function.comp, Token.inheriting_inheriting]
    congr 1
    have hstart : b.atSign.leading.hasNewline = b.atSign.startsLine := rfl
    rw [leading_eq, leading_eq, hstart, inheriting, Token.inheriting]
    split <;> rfl
  · rfl

end Attribute

namespace Decl

/-- The tokens after the attributes. -/
def afterAttributes (d : Decl) : List Token := Node.tokens (d.withAttributes [])

theorem tokens_withAttributes (d : Decl) (as : List Attribute) :
    Node.tokens (d.withAttributes as) = Node.tokens as ++ d.afterAttributes := by
  rcases d with ⟨⟨head, block⟩⟩ | ⟨⟨head, block⟩⟩ | ⟨⟨head, block⟩⟩ | d | d | d <;>
    simp [afterAttributes, withAttributes, Node.tokens, Decl.tokens, NominalDecl.tokens,
      ExtensionDecl.tokens]

theorem withAttributes_attributes (d : Decl) : d.withAttributes d.attributes = d := by
  rcases d with ⟨⟨head, block⟩⟩ | ⟨⟨head, block⟩⟩ | ⟨⟨head, block⟩⟩ | d | d | d <;> rfl

theorem attributes_withAttributes (d : Decl) (as : List Attribute) :
    (d.withAttributes as).attributes = as := by
  cases d <;> rfl

theorem withAttributes_withAttributes (d : Decl) (as bs : List Attribute) :
    (d.withAttributes as).withAttributes bs = d.withAttributes bs := by
  cases d <;> rfl

theorem tokens_eq (d : Decl) : Node.tokens d = Node.tokens d.attributes ++ d.afterAttributes := by
  rw [← tokens_withAttributes, withAttributes_attributes]

theorem mapTokens_withAttributes (g : Token → Token) (d : Decl) (as : List Attribute) :
    mapTokens g (d.withAttributes as) = (mapTokens g d).withAttributes (mapTokens g as) := by
  rcases d with ⟨⟨head, block⟩⟩ | ⟨⟨head, block⟩⟩ | ⟨⟨head, block⟩⟩ | d | d | d <;> rfl

theorem attributes_mapTokens (g : Token → Token) (d : Decl) :
    (mapTokens g d).attributes = mapTokens g d.attributes := by
  rcases d with ⟨⟨head, block⟩⟩ | ⟨⟨head, block⟩⟩ | ⟨⟨head, block⟩⟩ | d | d | d <;> rfl

theorem afterAttributes_withAttributes (d : Decl) (as : List Attribute) :
    (d.withAttributes as).afterAttributes = d.afterAttributes := by
  rw [afterAttributes, withAttributes_withAttributes, afterAttributes]

/-! ### Taking one attribute off -/

theorem removeAttribute_eq {d : Decl} {as bs : List Attribute} {a : Attribute}
    (h : d.attributes = as ++ a :: bs) :
    d.removeAttribute as.length =
      Node.modifyToken (Node.tokens as).length (·.inheriting (Node.leading a))
        (d.withAttributes (as ++ bs)) := by
  have ha : d.attributes[as.length]? = some a := by simp [h]
  have herase : d.attributes.eraseIdx as.length = as ++ bs := by
    rw [h, List.eraseIdx_append_of_length_le (Nat.le_refl _)]
    simp
  have htake : d.attributes.take as.length = as := by simp [h]
  rw [removeAttribute, ha]
  dsimp only
  rw [herase, htake]
  rfl

theorem tokens_removeAttribute {d : Decl} {as bs : List Attribute} {a : Attribute}
    (h : d.attributes = as ++ a :: bs) :
    Node.tokens (d.removeAttribute as.length) = Node.tokens as ++
      (Node.tokens bs ++ d.afterAttributes).modifyHead (·.inheriting (Node.leading a)) := by
  have happ : Node.tokens (as ++ bs) = Node.tokens as ++ Node.tokens bs := List.flatMap_append
  rw [removeAttribute_eq h, (hasShape _).tokens_modifyToken, tokens_withAttributes, happ,
    List.append_assoc, List.modify_eq_take_drop, List.take_left, List.drop_left]

theorem mapTokens_removeAttribute {d : Decl} {as bs : List Attribute} {a : Attribute}
    (h : d.attributes = as ++ a :: bs) :
    mapTokens Token.unled (d.removeAttribute as.length) =
      mapTokens Token.unled (d.withAttributes (as ++ bs)) := by
  rw [removeAttribute_eq h]
  exact (hasShape _).mapTokens_modifyToken _ fun t ↦ t.unled_inheriting _

/-- The attribute after the one that goes takes over what it leaves. -/
theorem removeAttribute_of_next {d : Decl} {as bs : List Attribute} {a b : Attribute}
    (h : d.attributes = as ++ a :: b :: bs) :
    d.removeAttribute as.length = d.withAttributes (as ++ b.inheriting (Node.leading a) :: bs) := by
  refine (hasShape _).ext (hasShape _) (g := Token.unled) ?_ ?_
  · have hunled : mapTokens Token.unled (b.inheriting (Node.leading a)) =
        mapTokens Token.unled b := by
      have hsign : (b.inheriting (Node.leading a)).atSign.unled = b.atSign.unled :=
        b.atSign.unled_inheriting _
      exact congrArg (fun t ↦ ({ mapTokens Token.unled b with atSign := t } : Attribute)) hsign
    rw [mapTokens_removeAttribute h, mapTokens_withAttributes, mapTokens_withAttributes,
      Node.mapTokens_list, Node.mapTokens_list, List.map_append, List.map_append, List.map_cons,
      List.map_cons, hunled]
  · have happ (b : Attribute) : Node.tokens (as ++ b :: bs) =
        Node.tokens as ++ (Node.tokens b ++ Node.tokens bs) := List.flatMap_append
    have hcons : Node.tokens (b :: bs) = Node.tokens b ++ Node.tokens bs := rfl
    rw [tokens_removeAttribute h, tokens_withAttributes, happ, hcons, Attribute.tokens_inheriting]
    simp only [List.append_assoc]
    rfl

/-- The last attribute leaves its trivia to what stands behind the attributes. -/
theorem removeAttribute_of_last {d : Decl} {as : List Attribute} {a : Attribute}
    (h : d.attributes = as ++ [a]) :
    (d.removeAttribute as.length).attributes = as ∧
      (d.removeAttribute as.length).afterAttributes =
        d.afterAttributes.modifyHead (·.inheriting (Node.leading a)) := by
  have hshape (as : List Attribute) : Node.HasShape as := .list fun a _ ↦ a.hasShape
  have hmap : mapTokens Token.unled (d.removeAttribute as.length).attributes =
      mapTokens Token.unled as := by
    rw [← attributes_mapTokens, mapTokens_removeAttribute h, attributes_mapTokens,
      attributes_withAttributes, List.append_nil]
  have hlen := congrArg (fun as ↦ (Node.tokens as).length) hmap
  simp only [(hshape _).tokens_mapTokens, List.length_map] at hlen
  have htokens := tokens_removeAttribute h
  rw [tokens_eq] at htokens
  obtain ⟨hattributes, hafter⟩ := List.append_inj htokens hlen
  exact ⟨(hshape _).ext (hshape _) hmap hattributes, hafter⟩

/-! ### Taking all of them off -/

variable {test : String → Bool}

/-- The tokens that are left when the attributes whose name passes the test are gone. -/
def stripped (test : String → Bool) (d : Decl) : List Token :=
  Attribute.strip test d.attributes d.afterAttributes

theorem exists_of_removeFirst {d : Decl} (h : d.attached test ≠ []) :
    ∃ as a bs, d.attributes = as ++ a :: bs ∧ (∀ b ∈ as, test b.name = false) ∧
      test a.name = true ∧ d.removeFirst test = d.removeAttribute as.length := by
  cases hfind : d.attributes.findIdx? fun a ↦ test a.name with
  | none =>
    refine absurd (List.filter_eq_nil_iff.2 fun a ha ↦ ?_) h
    simpa using List.findIdx?_eq_none_iff.1 hfind a ha
  | some i =>
    obtain ⟨hi, htest, hbefore⟩ := List.findIdx?_eq_some_iff_getElem.1 hfind
    refine ⟨d.attributes.take i, d.attributes[i], d.attributes.drop (i + 1), ?_, ?_, htest, ?_⟩
    · rw [List.getElem_cons_drop, List.take_append_drop]
    · intro b hb
      obtain ⟨j, hj, rfl⟩ := List.mem_take_iff_getElem.1 hb
      simpa using hbefore j (by omega)
    · rw [removeFirst, hfind, List.length_take, Nat.min_eq_left (by omega)]

/-- Taking the first attribute off is a step of the one pass. -/
theorem stripped_removeFirst {d : Decl} (h : d.attached test ≠ []) :
    (d.removeFirst test).stripped test = d.stripped test ∧
      ((d.removeFirst test).attached test).length + 1 = (d.attached test).length := by
  obtain ⟨as, a, bs, hd, has, ha, hremove⟩ := exists_of_removeFirst h
  rw [hremove]
  cases bs with
  | nil =>
    obtain ⟨hattributes, hafter⟩ := removeAttribute_of_last hd
    refine ⟨?_, ?_⟩
    · rw [stripped, stripped, hattributes, hafter, hd, Attribute.strip_of_none has,
        Attribute.strip_append has, Attribute.strip_of_pos ha, Attribute.strip]
    · simp [attached, hattributes, hd, ha]
  | cons b bs =>
    rw [removeAttribute_of_next hd]
    have hname : (b.inheriting (Node.leading a)).name = b.name := rfl
    refine ⟨?_, ?_⟩
    · rw [stripped, stripped, attributes_withAttributes, afterAttributes_withAttributes, hd,
        Attribute.strip_append has, Attribute.strip_append has, Attribute.strip_inheriting,
        Attribute.strip_of_pos ha]
    · simp only [attached, attributes_withAttributes, hd, List.filter_append, List.filter_cons,
        hname, ha]
      split <;> simp <;> omega

/-- Taking the attributes off one after the other is one pass over them. -/
theorem tokens_removeAttached (test : String → Bool) (d : Decl) :
    Node.tokens (d.removeAttached test) = d.stripped test := by
  rw [removeAttached]
  generalize hsteps : d.attached test = steps
  have hlen : steps.length = (d.attached test).length := by rw [hsteps]
  clear hsteps
  induction steps generalizing d with
  | nil =>
    have hnone : ∀ a ∈ d.attributes, test a.name = false := by
      intro a ha
      simpa using List.filter_eq_nil_iff.1 (List.length_eq_zero_iff.1 hlen.symm) a ha
    rw [List.foldl_nil, stripped, Attribute.strip_of_none hnone, ← tokens_eq]
  | cons _ steps ih =>
    have hne : d.attached test ≠ [] := by
      intro hnil
      simp [hnil] at hlen
    obtain ⟨hstep, hcount⟩ := stripped_removeFirst hne
    rw [List.foldl_cons, ih, hstep]
    simp only [List.length_cons] at hlen
    omega

end Decl

end EnumForge
