import EnumForge.Token.Lexeme
import EnumForge.Trivia.Scan

/-!
# The token stream of a source

A source is cut into tokens and the end-of-file token, which carries the trivia after the last of
them.  Tokens are cut first and placed afterwards, since each starts where the text before it ends.
-/

namespace EnumForge

open Text

/-- The tokens of a source; the end of the file is kept apart. -/
structure TokenStream where
  tokens : List Token
  endOfFile : Token
deriving DecidableEq, Repr

namespace TokenStream

/-- All tokens, the end of the file last. -/
def toList (s : TokenStream) : List Token := s.tokens ++ [s.endOfFile]

/-- A failure to cut a token, placed at the text that starts with it. -/
def lexicalError (fault : Lexeme.Fault) (rest : List Char) : ParseError (List Char) :=
  match fault with
  | .unterminatedString => .unterminatedString rest
  | .unclosedBacktick => .unexpectedToken "closing back-tick" "`" rest
  | .noToken c => .unexpectedToken "a token" (String.singleton c) rest

/-- Trivia from the head of `cs`. -/
def scanTrivia (sameLine : Bool) (cs : List Char) :
    Except (ParseError (List Char)) (Trivia × List Char) :=
  (Trivia.scan sameLine .empty cs).mapError .unterminatedComment

theorem length_le_of_scanTrivia {sameLine : Bool} {t : Trivia} {cs rest : List Char}
    (h : scanTrivia sameLine cs = .ok (t, rest)) : rest.length ≤ cs.length := by
  exact Trivia.length_le_of_scan (mapError_eq_ok.1 h)

/-- One token from the head of `c :: cs`, and the text after its trailing trivia. -/
def nextToken (leading : Trivia) (c : Char) (cs : List Char) :
    Except (ParseError (List Char)) (Token × List Char) := do
  let (kind, tail, rest) ← (Lexeme.cut c cs).mapError (lexicalError · (c :: cs))
  let (trailing, rest) ← scanTrivia true rest
  return ({ kind, text := String.ofList (c :: tail), leading, trailing }, rest)

theorem length_le_of_nextToken {leading : Trivia} {c : Char} {cs rest : List Char} {t : Token}
    (h : nextToken leading c cs = .ok (t, rest)) : rest.length ≤ cs.length := by
  obtain ⟨⟨kind, tail, after⟩, hcut, h⟩ := bind_eq_ok.1 h
  obtain ⟨⟨trailing, rest'⟩, hscan, h⟩ := bind_eq_ok.1 h
  have hlen := congrArg List.length (Lexeme.append_of_cut (mapError_eq_ok.1 hcut))
  have hle := length_le_of_scanTrivia hscan
  simp only [pure, Except.pure, Except.ok.injEq, Prod.mk.injEq] at h
  rw [← h.2]
  simp at hlen
  omega

/-- Cuts `cs` into tokens, the first of which has the given leading trivia.  Failures are placed
at the text that starts with them. -/
def cut (leading : Trivia) (cs : List Char) : Except (ParseError (List Char)) TokenStream :=
  match cs with
  | [] => .ok ⟨[], { kind := .endOfFile, text := "", leading }⟩
  | c :: cs =>
    match _token : nextToken leading c cs with
    | .error e => .error e
    | .ok (t, rest) =>
      match _next : scanTrivia false rest with
      | .error e => .error e
      | .ok (nextLeading, rest) =>
        match cut nextLeading rest with
        | .error e => .error e
        | .ok s => .ok { s with tokens := t :: s.tokens }
termination_by cs.length
decreasing_by
  have := length_le_of_nextToken _token
  have := length_le_of_scanTrivia _next
  simp
  omega

/-- A byte order mark is trivia at the very start only. -/
def startTrivia : List Char → Trivia × List Char
  | '\uFEFF' :: cs => (.ofPieces [.byteOrderMark], cs)
  | cs => (.empty, cs)

/-- Cuts a whole text. -/
def cutAll (cs : List Char) : Except (ParseError (List Char)) TokenStream := do
  let (mark, rest) := startTrivia cs
  let (leading, rest) ← (Trivia.scan false mark rest).mapError .unterminatedComment
  cut leading rest

/-- Gives the token its place, where its leading trivia starts at byte `n`. -/
def placeToken (n : Nat) (t : Token) : Token :=
  let start := n + t.leading.text.utf8ByteSize
  { t with span := some ⟨start, start + t.text.utf8ByteSize⟩ }

/-- Gives every token its place, where the first starts at byte `n`; also the byte after them. -/
def placeTokens (n : Nat) : List Token → List Token × Nat
  | [] => ([], n)
  | t :: ts =>
    let (placed, stop) := placeTokens (n + t.source.utf8ByteSize) ts
    (placeToken n t :: placed, stop)

def place (s : TokenStream) : TokenStream :=
  let (tokens, stop) := placeTokens 0 s.tokens
  ⟨tokens, placeToken stop s.endOfFile⟩

/-- The token stream of `source`; failures are placed at byte offsets. -/
def ofSource (source : String) : Except (ParseError Nat) TokenStream :=
  match cutAll source.toList with
  | .ok s => .ok s.place
  | .error e => .error (e.map fun rest ↦ source.utf8ByteSize - byteSize rest)

end TokenStream

/-- The tokens of `source`, the end of the file last. -/
def tokenize (source : String) : Except (ParseError LineColumn) (List Token) :=
  match TokenStream.ofSource source with
  | .ok s => .ok s.toList
  | .error e => .error (e.locate source)

end EnumForge
