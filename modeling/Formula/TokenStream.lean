import Formula.Token

/-!
The tokens of a text in order, with a cursor that moves over them.
-/
namespace Formula

/-- Tokens, the number of them before the cursor, and the text left unread by a scan that was
stopped. -/
structure TokenStream where
  tokens : List Token
  cursor : Nat
  remainder : Option String

namespace TokenStream

def ofTokens (tokens : List Token) : TokenStream := ⟨tokens, 0, none⟩

/-- The token under the cursor. -/
def peek? (s : TokenStream) : Option Token := s.tokens[s.cursor]?

/-- The token under the cursor, and the stream with the cursor behind it. -/
def advance (s : TokenStream) : Option Token × TokenStream :=
  match s.peek? with
  | some t => (some t, { s with cursor := s.cursor + 1 })
  | none => (none, s)

/-- Moves the cursor back by one token and gives the token it comes to. -/
def back (s : TokenStream) : Option Token × TokenStream :=
  if s.cursor = 0 then (none, s)
  else
    let s := { s with cursor := s.cursor - 1 }
    (s.peek?, s)

def reset (s : TokenStream) : TokenStream := { s with cursor := 0 }

def length (s : TokenStream) : Nat := s.tokens.length

def isEmpty (s : TokenStream) : Bool := s.tokens.isEmpty

def kinds (s : TokenStream) : List Kind := s.tokens.map Token.kind

/-- Going back undoes an advance. -/
theorem back_advance {s : TokenStream} {t : Token} (h : s.peek? = some t) :
    s.advance.2.back = (some t, s) := by
  have h' : s.tokens[s.cursor]? = some t := h
  simp [advance, back, peek?, h']

end TokenStream
end Formula
