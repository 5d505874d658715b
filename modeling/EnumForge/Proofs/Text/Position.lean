import EnumForge.Text.Position
import Mathlib.Data.Nat.Count
import Mathlib.Data.Prod.Lex
import Mathlib.Order.Monotone.Basic

/-!
# Lines and columns

The place of an offset changes byte by byte: the last byte of a line break starts the next line,
a byte of no line break is one more column, and the `\r` of `\r\n` leaves the place as it is.  So
places count line breaks and bytes, they never go back, and they go on past every byte that belongs
to no line break.
-/

namespace EnumForge.Text

/-! ### Bytes of a text -/

/-- The bytes of a text in UTF-8. -/
def bytes (cs : List Char) : List UInt8 := cs.flatMap String.utf8EncodeChar

theorem toByteArray_bytes (s : String) : (bytes s.toList).toByteArray = s.toByteArray :=
  String.utf8Encode_toList

@[simp] theorem bytes_nil : bytes [] = [] := rfl

theorem bytes_cons (c : Char) (cs : List Char) :
    bytes (c :: cs) = String.utf8EncodeChar c ++ bytes cs := rfl

theorem bytes_append (cs ds : List Char) : bytes (cs ++ ds) = bytes cs ++ bytes ds :=
  List.flatMap_append

theorem length_bytes (cs : List Char) : (bytes cs).length = byteSize cs := by
  induction cs with
  | nil => rfl
  | cons c cs ih => rw [bytes_cons, List.length_append, String.length_utf8EncodeChar, ih, byteSize]

/-- Whether the byte at `i` is the last one of a line break: a line feed, or a carriage return that
no line feed follows. -/
def endsBreak (bs : List UInt8) (i : Nat) : Bool :=
  bs[i]? == some 10 || bs[i]? == some 13 && bs[i + 1]? != some 10

/-- Whether there is a byte at `i` that is neither a line feed nor a carriage return. -/
def isVisible (bs : List UInt8) (i : Nat) : Bool := bs[i]?.any fun b ↦ b != 10 && b != 13

theorem endsBreak_of_isVisible {bs : List UInt8} {i : Nat} (h : isVisible bs i = true) :
    endsBreak bs i = false := by
  cases hb : bs[i]? with
  | none => simp [isVisible, hb] at h
  | some b =>
    have hne : b ≠ 10 ∧ b ≠ 13 := by simpa [isVisible, hb] using h
    simp [endsBreak, hb, hne]

/-- Only the line feed and the carriage return are written with their bytes. -/
theorem ne_of_mem_utf8EncodeChar {c : Char} (hc : c ≠ '\n' ∧ c ≠ '\r') :
    ∀ b ∈ String.utf8EncodeChar c, b ≠ 10 ∧ b ≠ 13 := by
  have hcode {d : Char} (hd : c ≠ d) : c.val.toNat ≠ d.val.toNat := fun heq ↦
    hd (Char.ext (UInt32.toNat_inj.1 heq))
  have hfeed : c.val.toNat ≠ 10 := hcode hc.1
  have hreturn : c.val.toNat ≠ 13 := hcode hc.2
  have hbyte {n : Nat} (h₁ : n % 256 ≠ 10) (h₂ : n % 256 ≠ 13) :
      UInt8.ofNat n ≠ 10 ∧ UInt8.ofNat n ≠ 13 := by
    refine ⟨fun heq ↦ h₁ ?_, fun heq ↦ h₂ ?_⟩ <;>
      simpa using congrArg UInt8.toNat heq
  unfold String.utf8EncodeChar
  dsimp only
  -- Every byte of a longer form is 128 or more.
  split_ifs <;> simp only [List.forall_mem_cons, List.not_mem_nil, IsEmpty.forall_iff,
    implies_true, and_true]
  · exact hbyte (by omega) (by omega)
  · exact ⟨hbyte (by omega) (by omega), hbyte (by omega) (by omega)⟩
  · exact ⟨hbyte (by omega) (by omega), hbyte (by omega) (by omega), hbyte (by omega) (by omega)⟩
  · exact ⟨hbyte (by omega) (by omega), hbyte (by omega) (by omega), hbyte (by omega) (by omega),
      hbyte (by omega) (by omega)⟩

theorem isVisible_of_ne {c : Char} (hc : c ≠ '\n' ∧ c ≠ '\r') {i : Nat} (hi : i < c.utf8Size)
    (cs : List Char) : isVisible (bytes (c :: cs)) i = true := by
  have hlen : i < (String.utf8EncodeChar c).length := by rwa [String.length_utf8EncodeChar]
  rw [isVisible, bytes_cons, List.getElem?_append_left hlen, List.getElem?_eq_getElem hlen]
  simpa using ne_of_mem_utf8EncodeChar hc _ (List.getElem_mem hlen)

theorem getElem?_bytes_add (c : Char) (cs : List Char) (i : Nat) :
    (bytes (c :: cs))[c.utf8Size + i]? = (bytes cs)[i]? := by
  rw [bytes_cons, ← String.length_utf8EncodeChar, List.getElem?_append_right (Nat.le_add_right _ _),
    Nat.add_sub_cancel_left]

theorem endsBreak_bytes_add (c : Char) (cs : List Char) (i : Nat) :
    endsBreak (bytes (c :: cs)) (c.utf8Size + i) = endsBreak (bytes cs) i := by
  have hnext := getElem?_bytes_add c cs (i + 1)
  rw [← Nat.add_assoc] at hnext
  rw [endsBreak, getElem?_bytes_add, hnext, endsBreak]

theorem isVisible_bytes_add (c : Char) (cs : List Char) (i : Nat) :
    isVisible (bytes (c :: cs)) (c.utf8Size + i) = isVisible (bytes cs) i := by
  rw [isVisible, getElem?_bytes_add, isVisible]

/-- A text starts with the byte of a line feed only if it starts with a line feed. -/
theorem head?_of_getElem?_bytes {cs : List Char} (h : (bytes cs)[0]? = some 10) :
    cs.head? = some '\n' := by
  cases cs with
  | nil => simp at h
  | cons c cs =>
    by_cases hfeed : c = '\n'
    · rw [hfeed, List.head?_cons]
    by_cases hreturn : c = '\r'
    · have hbyte : (bytes (c :: cs))[0]? = some 13 := by rw [hreturn]; rfl
      rw [hbyte] at h
      simp at h
    have hvisible := isVisible_of_ne ⟨hfeed, hreturn⟩ c.utf8Size_pos cs
    simp [isVisible, h] at hvisible

theorem endsBreak_zero {c : Char} {cs : List Char}
    (hc : c = '\n' ∨ c = '\r' ∧ cs.head? ≠ some '\n') : endsBreak (bytes (c :: cs)) 0 = true := by
  obtain rfl | ⟨rfl, hnext⟩ := hc
  · rfl
  · have hbyte : (bytes cs)[0]? ≠ some 10 := fun hfeed ↦ hnext (head?_of_getElem?_bytes hfeed)
    have hzero : (bytes ('\r' :: cs))[0]? = some 13 := rfl
    have hone : (bytes ('\r' :: cs))[0 + 1]? = (bytes cs)[0]? := rfl
    rw [endsBreak, hzero, hone]
    simpa using hbyte

namespace LineColumn

/-! ### Byte by byte -/

/-- The place behind the byte at `i`, where `here` is the place before it. -/
def past (here : LineColumn) (bs : List UInt8) (i : Nat) : LineColumn :=
  if endsBreak bs i then ⟨here.line + 1, 1⟩
  else if isVisible bs i then ⟨here.line, here.column + 1⟩
  else here

variable (here : LineColumn)

theorem past_bytes_add (c : Char) (cs : List Char) (i : Nat) :
    here.past (bytes (c :: cs)) (c.utf8Size + i) = here.past (bytes cs) i := by
  rw [past, endsBreak_bytes_add, isVisible_bytes_add, past]

theorem past_of_isVisible {bs : List UInt8} {i : Nat} (h : isVisible bs i = true) :
    here.past bs i = ⟨here.line, here.column + 1⟩ := by
  rw [past, endsBreak_of_isVisible h, if_neg Bool.false_ne_true, if_pos h]

@[simp] theorem advance_zero (cs : List Char) : advance here 0 cs = here := by
  unfold advance
  rfl

@[simp] theorem advance_nil (n : Nat) : advance here n [] = here := by cases n <;> rfl

theorem advance_plain {c : Char} (hc : c ≠ '\n' ∧ c ≠ '\r') (n : Nat) (cs : List Char) :
    advance here n (c :: cs) =
      advance ⟨here.line, here.column + min n c.utf8Size⟩ (n - c.utf8Size) cs := by
  cases n with
  | zero => simp
  | succ n =>
    rw [advance.eq_5, if_neg (by simpa using hc)]
    rintro _ rfl
    exact absurd rfl hc.2

theorem advance_break {c : Char} {cs : List Char}
    (hc : c = '\n' ∨ c = '\r' ∧ cs.head? ≠ some '\n') (n : Nat) :
    advance here (n + 1) (c :: cs) = advance ⟨here.line + 1, 1⟩ n cs := by
  rw [advance.eq_5, if_pos (by tauto)]
  rintro cs' rfl rfl
  simp at hc

/-- A carriage return before a line feed is passed over. -/
theorem advance_returnFeed (n : Nat) (cs : List Char) :
    advance here (n + 1) ('\r' :: '\n' :: cs) = advance here n ('\n' :: cs) := by
  cases n with
  | zero => rw [advance_zero]; rfl
  | succ n => rw [advance_break here (.inl rfl)]; rfl

theorem past_returnFeed (cs : List Char) : here.past (bytes ('\r' :: '\n' :: cs)) 0 = here := rfl

/-- What a text starts with: a character of a line, or a line break of one or two characters. -/
theorem cases_of_cons (c : Char) (cs : List Char) :
    (c ≠ '\n' ∧ c ≠ '\r') ∨ (c = '\n' ∨ c = '\r' ∧ cs.head? ≠ some '\n') ∨
      c = '\r' ∧ ∃ rest, cs = '\n' :: rest := by
  by_cases hfeed : cs.head? = some '\n'
  · obtain ⟨rest, hrest⟩ := List.head?_eq_some_iff.1 hfeed
    have hbreak : ∃ rest, cs = '\n' :: rest := ⟨rest, hrest⟩
    tauto
  · tauto

/-- One byte further. -/
theorem advance_succ (n : Nat) (cs : List Char) :
    advance here (n + 1) cs = (advance here n cs).past (bytes cs) n := by
  induction cs generalizing here n with
  | nil => simp [past, endsBreak, isVisible]
  | cons c cs ih =>
    obtain hplain | hbreak | ⟨rfl, rest, rfl⟩ := cases_of_cons c cs
    · rw [advance_plain here hplain, advance_plain here hplain]
      obtain hlt | hle := Nat.lt_or_ge n c.utf8Size
      · rw [past_of_isVisible _ (isVisible_of_ne hplain hlt cs), Nat.sub_eq_zero_of_le hlt,
          Nat.sub_eq_zero_of_le hlt.le, Nat.min_eq_left hlt, Nat.min_eq_left hlt.le]
        simp [Nat.add_assoc]
      · obtain ⟨m, rfl⟩ := Nat.exists_eq_add_of_le hle
        have hsub : c.utf8Size + m + 1 - c.utf8Size = m + 1 := by omega
        rw [past_bytes_add, Nat.add_sub_cancel_left, hsub, ← ih, Nat.min_eq_right hle,
          Nat.min_eq_right (Nat.le_succ_of_le hle)]
    · have hsize : c.utf8Size = 1 := by
        obtain rfl | ⟨rfl, -⟩ := hbreak <;> rfl
      rw [advance_break here hbreak]
      cases n with
      | zero => simp [past, endsBreak_zero hbreak]
      | succ m => rw [advance_break here hbreak, ih, ← past_bytes_add _ c, hsize, Nat.add_comm 1]
    · rw [advance_returnFeed]
      cases n with
      | zero => rw [advance_zero, advance_zero, past_returnFeed]
      | succ m =>
        rw [advance_returnFeed, ih, ← past_bytes_add _ '\r', Nat.add_comm m]
        rfl

theorem ofOffset_zero (source : String) : ofOffset source 0 = ⟨1, 1⟩ := advance_zero _ _

theorem ofOffset_succ (source : String) (p : Nat) :
    ofOffset source (p + 1) = (ofOffset source p).past (bytes source.toList) p :=
  advance_succ _ p source.toList

/-- Offsets past the end stand for the end. -/
theorem ofOffset_min (source : String) (p : Nat) :
    ofOffset source (min p (byteSize source.toList)) = ofOffset source p := by
  obtain hle | hle := Nat.le_total p (byteSize source.toList)
  · rw [Nat.min_eq_left hle]
  rw [Nat.min_eq_right hle]
  induction p, hle using Nat.le_induction with
  | base => rfl
  | succ p hle ih =>
    have hnone : (bytes source.toList)[p]? = none :=
      List.getElem?_eq_none (by rwa [length_bytes])
    rw [ofOffset_succ, ih]
    simp [past, endsBreak, isVisible, hnone]

/-! ### What is counted -/

/-- The place of byte `p` as it is counted: one more than the line breaks whose last byte lies
before it, and one more than the bytes since then that belong to no line break. -/
def counted (bs : List UInt8) (p : Nat) : LineColumn where
  line := 1 + Nat.count (fun i ↦ endsBreak bs i) p
  column := 1 + Nat.count (fun i ↦ isVisible bs i ∧ ∀ j < p, i ≤ j → ¬endsBreak bs j) p

theorem counted_succ_of_endsBreak {bs : List UInt8} {p : Nat} (h : endsBreak bs p = true) :
    counted bs (p + 1) = ⟨(counted bs p).line + 1, 1⟩ := by
  have hcolumn : Nat.count (fun i ↦ isVisible bs i ∧ ∀ j < p + 1, i ≤ j → ¬endsBreak bs j)
      (p + 1) = 0 :=
    Nat.count_iff_forall_not.2 fun i hi hcolumn ↦
      hcolumn.2 p p.lt_succ_self (Nat.le_of_lt_succ hi) h
  rw [counted, counted, hcolumn, Nat.count_succ, if_pos h]
  rfl

theorem counted_succ_of_not_endsBreak {bs : List UInt8} {p : Nat} (h : ¬endsBreak bs p = true) :
    counted bs (p + 1) =
      ⟨(counted bs p).line, (counted bs p).column + if isVisible bs p then 1 else 0⟩ := by
  -- No line break ends at `p`, so the bytes that count do not change.
  have hsince (i : Nat) :
      (∀ j < p + 1, i ≤ j → ¬endsBreak bs j) ↔ ∀ j < p, i ≤ j → ¬endsBreak bs j := by
    rw [Nat.forall_lt_succ_right, and_iff_left fun _ ↦ h]
  have hbefore : Nat.count (fun i ↦ isVisible bs i ∧ ∀ j < p + 1, i ≤ j → ¬endsBreak bs j) p =
      Nat.count (fun i ↦ isVisible bs i ∧ ∀ j < p, i ≤ j → ¬endsBreak bs j) p :=
    Nat.le_antisymm (Nat.count_mono_left fun i _ hi ↦ hi.imp_right (hsince i).1)
      (Nat.count_mono_left fun i _ hi ↦ hi.imp_right (hsince i).2)
  have hlast : (isVisible bs p ∧ ∀ j < p + 1, p ≤ j → ¬endsBreak bs j) ↔ isVisible bs p := by
    refine and_iff_left fun j hj hp ↦ ?_
    rwa [Nat.le_antisymm (Nat.le_of_lt_succ hj) hp]
  rw [counted, counted, Nat.count_succ, Nat.count_succ, hbefore, if_neg h, if_congr hlast rfl rfl]
  simp [Nat.add_assoc]

theorem counted_succ (bs : List UInt8) (p : Nat) :
    counted bs (p + 1) = (counted bs p).past bs p := by
  by_cases hends : endsBreak bs p = true
  · rw [past, if_pos hends, counted_succ_of_endsBreak hends]
  · rw [past, if_neg hends, counted_succ_of_not_endsBreak hends]
    split <;> rfl

theorem ofOffset_eq_counted (source : String) (p : Nat) :
    ofOffset source p = counted (bytes source.toList) p := by
  induction p with
  | zero => rw [ofOffset_zero, counted, Nat.count_zero, Nat.count_zero]
  | succ p ih => rw [ofOffset_succ, counted_succ, ih]

/-- The second byte of a letter is a column, and the `\r` of `\r\n` is none. -/
example : (List.range 7).map (ofOffset "é\r\nb") =
    [⟨1, 1⟩, ⟨1, 2⟩, ⟨1, 3⟩, ⟨1, 3⟩, ⟨2, 1⟩, ⟨2, 2⟩, ⟨2, 2⟩] := by
  decide +kernel

/-! ### Order -/

/-- Places are ordered by lines first, then by columns. -/
instance : LinearOrder LineColumn :=
  LinearOrder.lift' (fun p ↦ toLex (p.line, p.column)) fun p q h ↦ by
    obtain ⟨⟩ := p
    obtain ⟨⟩ := q
    simpa using h

theorem lt_iff {p q : LineColumn} :
    p < q ↔ p.line < q.line ∨ p.line = q.line ∧ p.column < q.column := Prod.Lex.toLex_lt_toLex

theorem lt_nextColumn : here < ⟨here.line, here.column + 1⟩ :=
  lt_iff.2 (.inr ⟨rfl, Nat.lt_succ_self _⟩)

theorem le_past (bs : List UInt8) (i : Nat) : here ≤ here.past bs i := by
  have hline : here < ⟨here.line + 1, 1⟩ := lt_iff.2 (.inl (Nat.lt_succ_self _))
  unfold past
  split
  · exact hline.le
  split
  · exact here.lt_nextColumn.le
  · exact le_refl here

theorem ofOffset_monotone (source : String) : Monotone (ofOffset source) :=
  monotone_nat_of_le_succ fun p ↦ by
    rw [ofOffset_succ]
    exact le_past _ _ p

/-- What stands behind a byte of no line break stands at a later place. -/
theorem ofOffset_lt_of_isVisible {source : String} {p q : Nat}
    (hp : isVisible (bytes source.toList) p = true) (hpq : p < q) :
    ofOffset source p < ofOffset source q := by
  have hstep : ofOffset source p < ofOffset source (p + 1) := by
    rw [ofOffset_succ, past_of_isVisible _ hp]
    exact lt_nextColumn _
  exact hstep.trans_le (ofOffset_monotone source hpq)

end LineColumn

end EnumForge.Text
