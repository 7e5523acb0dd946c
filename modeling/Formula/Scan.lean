import Formula.Fault
import Formula.Lexeme
import Formula.TokenStream

/-!
Scanning: lexemes become tokens. What a lexeme means can depend on the token before it. A sign
where an operand is expected is a prefix operator, a product may leave out its operator, and so
may a sum of two names. An interceptor may look at every lexeme first, and may leave it out or
stop the scan.
-/
namespace Formula

namespace Fault

/-- The most characters of a text that a fault shows. -/
def fragmentLength : Nat := 20

def fragment (cs : List Char) : String := String.ofList (cs.take fragmentLength)

/-- No lexeme begins with the characters at `p`. -/
def unexpectedInput (p : Place) (cs : List Char) : Fault :=
  ((ofSyntax .unexpectedInput "no token matches the input").withFragment (fragment cs)).withSpan
    (p.spanOf (cs.take 1))

/-- A lexeme took nothing off the text at `p`. -/
def emptyMatch (p : Place) (cs : List Char) : Fault :=
  ((ofSyntax .emptyMatch "scanner matched nothing and cannot advance").withFragment
    (fragment cs)).withSpan (p.spanOf [])

end Fault

namespace Scan

/-- Operands stand first, behind operators, behind opening brackets and behind separators. -/
def expectsOperand : Option Kind → Bool
  | none => true
  | some k => k.isOperator || k.isOpener || k.isSeparator

/-- A number or a bracketed product may follow these without an operator. -/
def endsFactor (previous : Option Kind) : Bool :=
  previous == some .number || previous == some .parenClose

/-- A token that the text does not spell, right before `s`. -/
def implied (kind : Kind) (s : Span) : Token := .bare kind (.point s.start s.line s.column)

/-- Whether the next thing in the text that is not trivia is an opening parenthesis. The flag
says that the text begins inside a comment. -/
def opensCall (inComment : Bool) : List Char → Bool
  | [] => false
  | c :: cs =>
    if inComment then opensCall (c != '\n') cs
    else if c = '#' then opensCall true cs
    else if Unicode.isBlank c then opensCall false cs
    else c == '('

/-- Words for values, in any case. -/
def literalWord? (name : String) : Option Value :=
  match name.toLower with
  | "null" => some .null
  | "true" => some (.bool true)
  | "false" => some (.bool false)
  | _ => none

/-- Words for operators. -/
def operatorWord? : String → Option Kind
  | "and" => some .and
  | "or" => some .or
  | "not" => some .not
  | "in" => some .isIn
  | _ => none

/-- A sign is a prefix operator where an operand is expected. -/
def signKind (previous : Option Kind) (kind : Kind) : Kind :=
  if expectsOperand previous then
    match kind with
    | .plus => .unaryPlus
    | .minus => .unaryMinus
    | _ => kind
  else kind

def symbolTokens (previous : Option Kind) (kind : Kind) (s : Span) : List Token :=
  if kind = .parenOpen ∧ endsFactor previous then [implied .times s, .bare kind s]
  else [.bare (signKind previous kind) s]

/-- A name is a call if a parenthesis follows it. -/
def nameTokens (previous : Option Kind) (name : String) (s : Span) (rest : List Char) :
    List Token :=
  let kind := if opensCall false rest then .functionCall else .identifier
  (if previous = some .identifier then [implied .plus s] else []) ++ [⟨kind, .name name, s⟩]

/-- The tokens of a lexeme at `s`, after a token of kind `previous` and before `rest`. -/
def tokensOf (previous : Option Kind) (lexeme : Lexeme) (s : Span) (rest : List Char) :
    List Token :=
  match lexeme with
  | .symbol kind => symbolTokens previous kind s
  | .number x =>
    (if endsFactor previous then [implied .times s] else []) ++
      [⟨.number, .value (.number x), s⟩]
  | .text text => [⟨.literal, .value (.text text), s⟩]
  | .word name true => nameTokens previous name s rest
  | .word name false =>
    match literalWord? name, operatorWord? name with
    | some v, _ => [⟨.literal, .value v, s⟩]
    | none, some kind => symbolTokens previous kind s
    | none, none => nameTokens previous name s rest
  | .trivia => []

/-- What an interceptor wants done with a lexeme. -/
inductive Verdict
  | accept | skip | halt
  deriving DecidableEq

/-- An interceptor is asked about a lexeme before it becomes tokens. It is shown the tokens so
far, the latest first, the spelling of the lexeme, and the text behind it; and it may remember
things. -/
abbrev Interceptor (σ : Type) : Type := σ → List Token → List Char → List Char → Verdict × σ

/-- What came of a scan: its tokens and the text it left, or a fault; and the memory of its
interceptor. -/
abbrev Outcome (σ : Type) : Type := Except Fault (List Token × Option (List Char)) × σ

/-- Scans `cs` at `p`, after the tokens `emitted`, the latest first. -/
def run {σ : Type} (ask : Interceptor σ) (memory : σ) (emitted : List Token) (p : Place)
    (cs : List Char) : Outcome σ :=
  match cs with
  | [] => (.ok (emitted.reverse, none), memory)
  | c :: tail =>
    match _cut : Lexeme.cut? (c :: tail) with
    | none => (.error (.unexpectedInput p (c :: tail)), memory)
    | some x =>
      if x.spelling.isEmpty then (.error (.emptyMatch p (c :: tail)), memory)
      else
        match x.lexeme with
        | .trivia => run ask memory emitted (p.advance x.spelling) x.rest
        | lexeme =>
          match ask memory emitted x.spelling x.rest with
          | (.skip, memory) => run ask memory emitted (p.advance x.spelling) x.rest
          | (.halt, memory) => (.ok (emitted.reverse, some (c :: tail)), memory)
          | (.accept, memory) =>
            let new := tokensOf (emitted.head?.map Token.kind) lexeme (p.spanOf x.spelling) x.rest
            run ask memory (new.reverse ++ emitted) (p.advance x.spelling) x.rest
termination_by cs.length
decreasing_by all_goals exact (Lexeme.cut?_of _cut).length_lt

/-- The interceptor that lets everything pass. -/
def acceptAll : Interceptor Unit := fun _ _ _ _ => (.accept, ())

end Scan

/-- Scans a text under the eyes of an interceptor. -/
def tokenizeWith {σ : Type} (ask : Scan.Interceptor σ) (memory : σ) (source : String) :
    Except Fault TokenStream × σ :=
  let (outcome, memory) := Scan.run ask memory [] .origin source.toList
  (outcome.map fun (tokens, rest) => ⟨tokens, 0, rest.map String.ofList⟩, memory)

/-- The tokens of a text. -/
def tokenize (source : String) : Except Fault TokenStream :=
  (tokenizeWith Scan.acceptAll () source).1

end Formula
