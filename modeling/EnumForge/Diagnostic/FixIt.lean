import EnumForge.Diagnostic
import EnumForge.Error

/-!
# Applying fix-its

Every replacement that the diagnostics propose is made at once: the text of the old declaration,
without the trivia around it, gives way to the text of the new one.  Replacements that meet are
refused.
-/

namespace EnumForge

open Text

/-- New text for a byte range. -/
structure TextEdit where
  span : Span
  text : String
deriving DecidableEq, Repr

namespace TextEdit

/-- The text with the edit made. -/
def apply (e : TextEdit) (source : String) : String :=
  let cs := source.toList
  String.ofList (splitAtByte e.span.start cs).1 ++ e.text ++
    String.ofList (splitAtByte e.span.stop cs).2

/-- Where the first edit starts that reaches into the one before it. -/
def firstOverlap? : List TextEdit → Option Nat
  | a :: b :: rest =>
    if b.span.start < a.span.stop then some b.span.start else firstOverlap? (b :: rest)
  | _ => none

/-- Makes all edits, the last one first, so that each still finds its place. -/
def applyAll (edits : List TextEdit) (source : String) : Except HostError String :=
  let sorted := edits.mergeSort fun a b ↦ a.span.start ≤ b.span.start
  match firstOverlap? sorted with
  | some offset => .error (.overlappingFixIts offset)
  | none => .ok (sorted.foldr apply source)

end TextEdit

/-- The edit that a replacement stands for; the old declaration must have a place. -/
def FixIt.edit (f : FixIt) (r : Replacement) : Except HostError TextEdit :=
  match Node.span r.old with
  | some span => .ok ⟨span, Node.trimmed r.new⟩
  | none => .error (.missingSpan f.id.text)

def FixIt.edits (f : FixIt) : Except HostError (List TextEdit) := f.changes.mapM f.edit

/-- Makes every replacement that the diagnostics propose for `source`. -/
def applyFixIts (source : String) (diagnostics : List Diagnostic) : Except HostError String := do
  let edits ← (diagnostics.flatMap Diagnostic.fixIts).mapM FixIt.edits
  TextEdit.applyAll edits.flatten source

end EnumForge
