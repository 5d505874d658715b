import EnumForge.Proofs.Expansion.Handover
import EnumForge.Proofs.Token.Splice

/-!
# Attributes that can be taken out

Where attributes are taken out of a source, the token before them comes to stand before the token
behind them.  Two things can go wrong there.  A line comment after the first token goes on over the
second one, unless the line break that ended it is kept; and where nothing is left between both
tokens, the text of the first may go on with that of the second.  What is kept before the second
token is what stood before the attributes if each of them is followed by a token that starts a line,
and else at best what stood on its own line.
-/

namespace EnumForge

open Token (StartsSoft Spelled StandsFor InStep Replaces)

namespace Attribute

variable {test : String → Bool}

/-- The attributes at the start whose name passes the test. -/
def run (test : String → Bool) (as : List Attribute) : List Attribute :=
  as.takeWhile fun a ↦ test a.name

/-- What stands behind that run. -/
def behindRun (test : String → Bool) (as : List Attribute) (rest : List Token) : List Token :=
  Node.tokens (as.dropWhile fun a ↦ test a.name) ++ rest

/-- The trivia left before the token behind that run: its own, or where that token starts a line,
the trivia before the last attribute of the run, and in the same way on to the first one. -/
def leftBefore (test : String → Bool) : List Attribute → List Token → Trivia
  | [], rest => (rest.head?.map Token.leading).getD .empty
  | a :: as, rest =>
    if test a.name = true ∧ (leftBefore test as rest).hasNewline = false then
      leftBefore test as rest
    else Node.leading a

/-- The text of `p` would go on over the first token of `ts` if nothing stood between them. -/
def GoesOn (p : Token) (ts : List Token) : Prop :=
  (ts.head?.any fun n ↦ n.text.toList.head?.any p.continues) = true

instance (p : Token) (ts : List Token) : Decidable (GoesOn p ts) :=
  inferInstanceAs (Decidable (_ = true))

/-- The run of attributes at the start can be taken out behind the token `p`. -/
structure RunRemovable (test : String → Bool) (p : Token) (as : List Attribute)
    (rest : List Token) : Prop where
  /-- A line comment behind `p` still ends before the next token. -/
  comment : p.trailing.hasLineComment = true →
    LinesFollow test (run test as) (behindRun test as rest)
  /-- Trivia is left between `p` and the next token where they need it. -/
  trivia : GoesOn p (behindRun test as rest) →
    p.trailing.text ≠ "" ∨ (leftBefore test as rest).text ≠ ""

instance (p : Token) (as : List Attribute) (rest : List Token) :
    Decidable (RunRemovable test p as rest) :=
  decidable_of_iff (_ ∧ _) ⟨fun h ↦ ⟨h.1, h.2⟩, fun h ↦ ⟨h.comment, h.trivia⟩⟩

/-- Every run of attributes whose name passes the test can be taken out, where `p` is the token
before all of them, if there is one. -/
def Removable (test : String → Bool) : Option Token → List Attribute → List Token → Prop
  | _, [], _ => True
  | p, a :: as, rest =>
    if test a.name then (∀ q ∈ p, RunRemovable test q (a :: as) rest) ∧ Removable test none as rest
    else Removable test (Node.tokens a).getLast? as rest

instance decidableRemovable (p : Option Token) (as : List Attribute) (rest : List Token) :
    Decidable (Removable test p as rest) :=
  match as with
  | [] => isTrue trivial
  | a :: as =>
    have := decidableRemovable none as rest
    have := decidableRemovable (Node.tokens a).getLast? as rest
    inferInstanceAs (Decidable (if test a.name then _ ∧ _ else _))

/-! ### Only the next token counts -/

theorem linesFollow_congr {as : List Attribute} {rest rest' : List Token}
    (h : rest.head? = rest'.head?) : LinesFollow test as rest ↔ LinesFollow test as rest' := by
  induction as with
  | nil => rfl
  | cons a as ih => rw [LinesFollow, LinesFollow, ih, List.head?_append, List.head?_append, h]

theorem head?_behindRun_congr (as : List Attribute) {rest rest' : List Token}
    (h : rest.head? = rest'.head?) :
    (behindRun test as rest).head? = (behindRun test as rest').head? := by
  rw [behindRun, behindRun, List.head?_append, List.head?_append, h]

theorem leftBefore_congr (as : List Attribute) {rest rest' : List Token}
    (h : rest.head? = rest'.head?) : leftBefore test as rest = leftBefore test as rest' := by
  induction as with
  | nil => rw [leftBefore, leftBefore, h]
  | cons a as ih => rw [leftBefore, leftBefore, ih]

theorem RunRemovable.congr {p : Token} {as : List Attribute} {rest rest' : List Token}
    (h : RunRemovable test p as rest) (hhead : rest.head? = rest'.head?) :
    RunRemovable test p as rest' := by
  have hbehind : (behindRun test as rest).head? = (behindRun test as rest').head? :=
    head?_behindRun_congr as hhead
  have hlines : LinesFollow test (run test as) (behindRun test as rest) ↔
      LinesFollow test (run test as) (behindRun test as rest') := linesFollow_congr hbehind
  refine ⟨fun hcomment ↦ hlines.1 (h.comment hcomment), fun hgoes ↦ ?_⟩
  rw [GoesOn, ← hbehind] at hgoes
  rw [← leftBefore_congr as hhead]
  exact h.trivia hgoes

theorem Removable.congr {p : Option Token} {as : List Attribute} {rest rest' : List Token}
    (h : Removable test p as rest) (hhead : rest.head? = rest'.head?) :
    Removable test p as rest' := by
  induction as generalizing p with
  | nil => trivial
  | cons a as ih =>
    rw [Removable] at h ⊢
    split at h
    next htest =>
      rw [if_pos htest]
      exact ⟨fun q hq ↦ (h.1 q hq).congr hhead, ih h.2⟩
    next htest =>
      rw [if_neg htest]
      exact ih h

/-! ### The token behind a run -/

theorem strip_of_append (as bs : List Attribute) (rest : List Token) :
    strip test (as ++ bs) rest = strip test as (strip test bs rest) := by
  induction as with
  | nil => rfl
  | cons a as ih => rw [List.cons_append, strip, strip, ih]

theorem head?_strip_dropWhile (as : List Attribute) (rest : List Token) :
    (strip test (as.dropWhile fun a ↦ test a.name) rest).head? =
      (behindRun test as rest).head? := by
  rw [behindRun]
  cases hdrop : as.dropWhile fun a ↦ test a.name with
  | nil => rfl
  | cons b bs =>
    have hb : test b.name = false := by
      simpa [hdrop] using List.head?_dropWhile_not (fun a : Attribute ↦ test a.name) as
    rw [strip, if_neg (by simp [hb])]
    rfl

/-- Behind a run of removed attributes stands the token that stood there. -/
theorem head?_text_strip (as : List Attribute) (rest : List Token) :
    (strip test as rest).head?.map Token.text =
      (behindRun test as rest).head?.map Token.text := by
  have htext (ts : List Token) :
      ts.head?.map Token.text = (ts.map Token.unled).head?.map Token.text := by
    rw [List.head?_map, Option.map_map]
    rfl
  have hnone : (run test as).filter (fun a ↦ !test a.name) = [] := by
    refine List.filter_eq_nil_iff.2 fun a ha ↦ ?_
    simpa using List.mem_takeWhile_imp ha
  have hsplit : strip test as rest =
      strip test (run test as) (strip test (as.dropWhile fun a ↦ test a.name) rest) := by
    rw [← strip_of_append, run, List.takeWhile_append_dropWhile]
  have hnil : Node.tokens ([] : List Attribute) = [] := rfl
  rw [hsplit, htext, map_unled_strip, hnone, hnil, List.nil_append, ← htext, head?_strip_dropWhile]

theorem leading_of_strip {as : List Attribute} {rest : List Token} {c : Token} {cs : List Token}
    (h : strip test as rest = c :: cs) : c.leading = leftBefore test as rest := by
  induction as generalizing c cs with
  | nil =>
    obtain rfl : rest = c :: cs := h
    rfl
  | cons a as ih =>
    rw [strip] at h
    split at h
    next htest =>
      cases hrest : strip test as rest with
      | nil => simp [hrest] at h
      | cons d ds =>
        rw [hrest, List.modifyHead_cons, List.cons.injEq] at h
        have hline : d.startsLine = (leftBefore test as rest).hasNewline := by
          rw [Token.startsLine, ih hrest]
        rw [← h.1, leftBefore, Token.inheriting, hline]
        cases hnewline : (leftBefore test as rest).hasNewline with
        | true => simp [Token.withLeading]
        | false => simp [htest, ih hrest]
    next htest =>
      obtain ⟨rfl, -⟩ := List.cons.inj h
      rw [leftBefore, if_neg (by simp [htest])]
      rfl

theorem tokens_run_append (as : List Attribute) (rest : List Token) :
    Node.tokens (run test as) ++ behindRun test as rest = Node.tokens as ++ rest := by
  have happend : Node.tokens (run test as) ++ Node.tokens (as.dropWhile fun a ↦ test a.name) =
      Node.tokens (run test as ++ as.dropWhile fun a ↦ test a.name) := List.flatMap_append.symm
  rw [behindRun, ← List.append_assoc, happend, run, List.takeWhile_append_dropWhile]

/-- If lines follow, what is left is the trivia before the run. -/
theorem leftBefore_of_linesFollow {as : List Attribute} {rest : List Token}
    (h : LinesFollow test (run test as) (behindRun test as rest)) :
    leftBefore test as rest = ((Node.tokens as ++ rest).head?.map Token.leading).getD .empty := by
  induction as with
  | nil => rfl
  | cons a as ih =>
    have hleading : ((Node.tokens (a :: as) ++ rest).head?.map Token.leading).getD .empty =
        Node.leading a := rfl
    rw [hleading, leftBefore]
    cases htest : test a.name with
    | false => simp
    | true =>
      have hrun : run test (a :: as) = a :: run test as := List.takeWhile_cons_of_pos htest
      have hdrop : ((a :: as).dropWhile fun a ↦ test a.name) = as.dropWhile fun a ↦ test a.name :=
        List.dropWhile_cons_of_pos htest
      have hbehind : behindRun test (a :: as) rest = behindRun test as rest := by
        rw [behindRun, hdrop, behindRun]
      rw [hrun, hbehind] at h
      obtain ⟨hnext, hrest⟩ := h
      obtain ⟨t, ht, hline⟩ := hnext htest
      rw [tokens_run_append] at ht
      have hnewline : (leftBefore test as rest).hasNewline = true := by
        rw [ih hrest, Option.mem_def.1 ht]
        exact hline
      rw [if_neg (by simp [hnewline])]

/-- Nothing runs into what is left behind a run of attributes that can be taken out. -/
theorem RunRemovable.runsInto_eq {p : Token} {a : Attribute} {as : List Attribute}
    {rest before : List Token} (h : RunRemovable test p (a :: as) rest) (ha : a.atSign.StartsSoft)
    (hspelled : Spelled (p :: (Node.tokens (a :: as) ++ before))) {c : Token} {cs : List Token}
    (hstrip : strip test (a :: as) rest = c :: cs) : p.runsInto c = false := by
  have hends (hcomment : p.trailing.hasLineComment = true) :
      Trivia.endsLine c.leading.text.toList = true := by
    rw [leading_of_strip hstrip, leftBefore_of_linesFollow (h.comment hcomment)]
    exact Token.endsLine_of_spelled hspelled hcomment ha
  have hgoes : c.text.toList.head?.any p.continues = true →
      GoesOn p (behindRun test (a :: as) rest) := by
    have htext : (strip test (a :: as) rest).head?.map Token.text =
        (behindRun test (a :: as) rest).head?.map Token.text := head?_text_strip (a :: as) rest
    rw [hstrip, List.head?_cons, Option.map_some] at htext
    obtain ⟨n, hn, hsame⟩ := Option.map_eq_some_iff.1 htext.symm
    rw [GoesOn, hn, Option.any_some, hsame]
    exact id
  rw [Token.runsInto, Bool.or_eq_false_iff]
  constructor
  · simpa using hends
  · by_contra hrun
    simp only [Bool.not_eq_false, Bool.and_eq_true, beq_iff_eq] at hrun
    obtain ⟨⟨htrailing, hleading⟩, hcontinues⟩ := hrun
    rw [leading_of_strip hstrip] at hleading
    exact (h.trivia (hgoes hcontinues)).elim (· htrailing) (· hleading)

/-! ### Taking the attributes out -/

theorem strip_ne_nil (as : List Attribute) {rest : List Token} (hne : rest ≠ []) :
    strip test as rest ≠ [] := by
  induction as with
  | nil => exact hne
  | cons a as ih =>
    rw [strip]
    split <;> simp [ih]

theorem strip_append_right (as : List Attribute) {rest : List Token} (hne : rest ≠ [])
    (ts : List Token) : strip test as rest ++ ts = strip test as (rest ++ ts) := by
  induction as with
  | nil => rfl
  | cons a as ih =>
    rw [strip, strip, ← ih]
    split
    · obtain ⟨t, us, hus⟩ := List.exists_cons_of_ne_nil (strip_ne_nil as hne)
      rw [hus]
      rfl
    · rw [List.append_assoc]

theorem map_bare_strip (as : List Attribute) (rest : List Token) :
    (strip test as rest).map Token.bare =
      (Node.tokens (as.filter fun a ↦ !test a.name) ++ rest).map Token.bare := by
  have hbare : Token.bare = Token.bare ∘ Token.unled := rfl
  rw [hbare, ← List.map_map, map_unled_strip, List.map_map]

end Attribute

theorem Token.StartsSoft.inheriting {t : Token} (h : t.StartsSoft) (l : Trivia) :
    (t.inheriting l).StartsSoft := by
  unfold Token.inheriting
  split <;> exact h

theorem Token.spelled_inheriting {t : Token} {ts : List Token} (l : Trivia) :
    Spelled (t.inheriting l :: ts) ↔ Spelled (t :: ts) := by
  unfold Token.inheriting
  split
  · exact Token.spelled_withLeading l
  · rfl

namespace Attribute

variable {test : String → Bool}

theorem exists_strip (test : String → Bool) {as : List Attribute}
    (has : ∀ a ∈ as, a.atSign.StartsSoft) {t : Token} (ht : t.StartsSoft) (rest : List Token) :
    ∃ n ns, strip test as (t :: rest) = n :: ns ∧ n.StartsSoft := by
  induction as with
  | nil => exact ⟨t, rest, rfl, ht⟩
  | cons a as ih =>
    obtain ⟨n, ns, hstrip, hn⟩ := ih fun b hb ↦ has b (List.mem_cons_of_mem a hb)
    rw [strip, hstrip]
    split
    · exact ⟨_, ns, rfl, hn.inheriting _⟩
    · exact ⟨a.atSign, _, rfl, has a List.mem_cons_self⟩

/-- Attributes that can be taken out may be taken out before a word. -/
theorem replaces_strip {p : Option Token} {as : List Attribute}
    (has : ∀ a ∈ as, a.atSign.StartsSoft) {t : Token} (ht : t.StartsSoft)
    {before after : List Token} (h : InStep (t :: before) (t :: after))
    (hspelled : Spelled (Node.tokens as ++ t :: before))
    (hremove : Removable test p as (t :: after)) :
    Replaces p (Node.tokens as ++ t :: before) (strip test as (t :: after)) := by
  induction as generalizing p with
  | nil => exact h.replaces rfl p
  | cons a as ih =>
    have has' : ∀ b ∈ as, b.atSign.StartsSoft := fun b hb ↦ has b (List.mem_cons_of_mem a hb)
    have hcons : Node.tokens (a :: as) ++ t :: before =
        Node.tokens a ++ (Node.tokens as ++ t :: before) := List.append_assoc _ _ _
    have hne : Node.tokens as ++ t :: before ≠ [] := by simp
    have hrest := Token.spelled_of_append (hcons ▸ hspelled) hne
    rw [Removable] at hremove
    split at hremove
    next htest =>
      obtain ⟨hrun, hremove⟩ := hremove
      obtain ⟨n, ns, hstrip, hn⟩ := exists_strip test has' ht after
      have hstands := (ih has' hrest hremove).standsFor
      have hready := hstands.ready (Token.ready_of_append (hcons ▸ hspelled)
        (by simp [Node.tokens]) hne)
      have hall : strip test (a :: as) (t :: after) = n.inheriting (Node.leading a) :: ns := by
        rw [strip, if_pos htest, hstrip]
        rfl
      rw [hstrip] at hstands hready
      have hsoft : StandsFor (Node.tokens (a :: as) ++ t :: before)
          (strip test (a :: as) (t :: after)) := by
        rw [hall]
        refine .soft (has a List.mem_cons_self) (hn.inheriting _)
          ((Token.spelled_inheriting _).2 hstands.spelled) ?_
        rw [Token.inheriting]
        split
        · exact .inl rfl
        · exact .inr hready
      refine ⟨hsoft, fun q hq hbehind ↦ ?_⟩
      have hruns := (hrun q hq).runsInto_eq (has a List.mem_cons_self) hbehind hall
      rw [hall] at hsoft ⊢
      exact hsoft.keep hbehind (fun _ ↦ hruns) q.leading
    next htest =>
      have hstep := (ih has' hrest hremove).append (by simp [Node.tokens]) (hcons ▸ hspelled)
      rw [strip, if_neg htest, hcons]
      exact hstep.replaces rfl p

end Attribute

end EnumForge
