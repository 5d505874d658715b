import EnumForge.Error
import EnumForge.Proofs.Token.Place

/-!
# Runs that can fail

A program that reads a source by byte positions, indices and counters can fail in ways that a walk
over lists cannot: a slice can cut through a character, an index can lie behind the last token, a
counter can fall below zero, a loop can go on for ever.  A guarded run makes each of these failures
visible, so that a run without one is known to be safe.  Numbers have no largest value here, and
calls may be nested as deep as they like: the bounds of a machine are no fault.
-/

namespace EnumForge.Checked

open Text (byteSize byteSize_append byteSize_cons)

inductive Fault where
  /-- A slice out of range, or one that starts or stops within a character. -/
  | slice
  | index
  | underflow
  /-- The end of the file as a token of an item. -/
  | endTaken
  /-- A loop that is not done within its bound. -/
  | endless
deriving DecidableEq, Repr

/-- Why there is no result: the source is refused, which is an answer, or there is a fault. -/
inductive Halt where
  | refused (e : ParseError Nat)
  | fault (f : Fault)
deriving DecidableEq, Repr

abbrev Guarded := Except Halt

def refuse {α : Type} (e : ParseError Nat) : Guarded α := .error (.refused e)

def fault {α : Type} (f : Fault) : Guarded α := .error (.fault f)

/-- A result that may only be refused. -/
def ofReading {α : Type} (r : Except (ParseError Nat) α) : Guarded α := r.mapError .refused

@[simp] theorem ok_bind {ε α β : Type} (a : α) (f : α → Except ε β) :
    ((.ok a : Except ε α) >>= f) = f a := rfl

@[simp] theorem error_bind {ε α β : Type} (e : ε) (f : α → Except ε β) :
    ((.error e : Except ε α) >>= f) = .error e := rfl

@[simp] theorem pure_eq_ok {ε α : Type} (a : α) : (pure a : Except ε α) = .ok a := rfl

@[simp] theorem refuse_bind {α β : Type} (e : ParseError Nat) (f : α → Guarded β) :
    (refuse e >>= f) = refuse e := rfl

theorem exists_fuel {n fuel : Nat} (h : n < fuel) : ∃ m, fuel = m + 1 :=
  Nat.exists_eq_add_one.2 (Nat.zero_lt_of_lt h)

theorem suffix_of_cons {α : Type} {a : α} {as all : List α} (h : a :: as <:+ all) : as <:+ all :=
  (List.suffix_cons a as).trans h

/-! ### Counters and slices -/

/-- `n - k`, which has to be a number of its type. -/
def sub (n k : Nat) : Guarded Nat := if k ≤ n then .ok (n - k) else fault .underflow

theorem sub_of_le {n k : Nat} (h : k ≤ n) : sub n k = .ok (n - k) := if_pos h

/-- The text up to byte `n`, and from there on. -/
def splitBytes : Nat → List Char → Guarded (List Char × List Char)
  | 0, cs => .ok ([], cs)
  | _ + 1, [] => fault .slice
  | n + 1, c :: cs =>
    if c.utf8Size ≤ n + 1 then do
      let (before, after) ← splitBytes (n + 1 - c.utf8Size) cs
      return (c :: before, after)
    else fault .slice

theorem splitBytes_append (cs ds : List Char) :
    splitBytes (byteSize cs) (cs ++ ds) = .ok (cs, ds) := by
  induction cs with
  | nil => simp [splitBytes]
  | cons c cs ih =>
    obtain ⟨n, hn⟩ : ∃ n, byteSize (c :: cs) = n + 1 :=
      Nat.exists_eq_succ_of_ne_zero (by have := c.utf8Size_pos; simp; omega)
    have hsize : n + 1 - c.utf8Size = byteSize cs := by
      rw [← hn, byteSize_cons, Nat.add_sub_cancel_left]
    have hle : c.utf8Size ≤ n + 1 := by
      rw [← hn, byteSize_cons]
      exact Nat.le_add_right _ _
    rw [hn, List.cons_append, splitBytes, if_pos hle, hsize, ih]
    rfl

/-- A text is split in range and between two characters, or not at all. -/
theorem splitBytes_eq_ok {n : Nat} {cs before after : List Char} :
    splitBytes n cs = .ok (before, after) ↔ cs = before ++ after ∧ n = byteSize before := by
  constructor
  · intro h
    induction cs generalizing n before with
    | nil =>
      cases n with
      | zero =>
        simp only [splitBytes, Except.ok.injEq, Prod.mk.injEq] at h
        obtain ⟨rfl, rfl⟩ := h
        exact ⟨rfl, rfl⟩
      | succ n => simp [splitBytes, fault] at h
    | cons c cs ih =>
      cases n with
      | zero =>
        simp only [splitBytes, Except.ok.injEq, Prod.mk.injEq] at h
        obtain ⟨rfl, rfl⟩ := h
        exact ⟨rfl, rfl⟩
      | succ n =>
        rw [splitBytes] at h
        split at h
        next hle =>
          obtain ⟨⟨b, a⟩, hs, he⟩ := bind_eq_ok.1 h
          simp only [pure_eq_ok, Except.ok.injEq, Prod.mk.injEq] at he
          obtain ⟨rfl, rfl⟩ := he
          obtain ⟨rfl, hn⟩ := ih hs
          refine ⟨rfl, ?_⟩
          rw [byteSize_cons, ← hn]
          omega
        next => simp [fault] at h
  · rintro ⟨rfl, rfl⟩
    exact splitBytes_append before after

def sliceFrom (n : Nat) (cs : List Char) : Guarded (List Char) := do
  let (_, after) ← splitBytes n cs
  return after

def sliceTo (n : Nat) (cs : List Char) : Guarded (List Char) := do
  let (before, _) ← splitBytes n cs
  return before

def slice (start stop : Nat) (cs : List Char) : Guarded (List Char) := do
  let before ← sliceTo stop cs
  sliceFrom start before

theorem sliceFrom_append (cs ds : List Char) : sliceFrom (byteSize cs) (cs ++ ds) = .ok ds := by
  rw [sliceFrom, splitBytes_append]
  rfl

theorem sliceTo_append (cs ds : List Char) : sliceTo (byteSize cs) (cs ++ ds) = .ok cs := by
  rw [sliceTo, splitBytes_append]
  rfl

theorem slice_append (before cs after : List Char) :
    slice (byteSize before) (byteSize before + byteSize cs) (before ++ (cs ++ after)) = .ok cs := by
  rw [slice, ← byteSize_append, ← List.append_assoc, sliceTo_append, ok_bind, sliceFrom_append]

example : sliceFrom 1 ['é'] = fault .slice := rfl

end EnumForge.Checked
