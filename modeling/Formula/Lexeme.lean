import Formula.Kind
import Formula.Number.Numeral
import Formula.Unicode.Alphanumeric
import Formula.Unicode.Blank

/-!
Lexemes, the pieces that a text is read in: symbols, numbers, words, quoted text, and trivia,
which is white space or a comment. A class either takes a nonempty piece off the front of a
text or takes nothing.
-/
namespace Formula

/-- A piece of text by its class. The name of an explicit word stands between braces. -/
inductive Lexeme
  | symbol (kind : Kind)
  | number (x : Float)
  | word (name : String) (explicit : Bool)
  | text (s : String)
  | trivia

namespace Lexeme

/-- A lexeme, its spelling, and the text behind it. -/
structure Cut where
  lexeme : Lexeme
  spelling : List Char
  rest : List Char

def isWordCharacter (c : Char) : Bool := Unicode.isAlphanumeric c || c == '.' || c == '_'

def isQuote (c : Char) : Bool := c == '"' || c == '\x27'

/-- Symbols of two characters. -/
def doubleSymbol? (c d : Char) : Option Kind :=
  match c, d with
  | '-', '>' => some .pairArrow
  | '|', '|' => some .concat
  | '>', '=' => some .greaterEqual
  | '<', '=' => some .lessEqual
  | '<', '>' => some .notEqual
  | _, _ => none

/-- Symbols of one character. -/
def singleSymbol? : Char → Option Kind
  | '!' => some .not
  | ',' => some .comma
  | '>' => some .greater
  | '<' => some .less
  | '=' => some .equal
  | '&' => some .and
  | '|' => some .or
  | '+' => some .plus
  | '-' => some .minus
  | '*' => some .times
  | '/' => some .div
  | '^' => some .pow
  | '%' => some .mod
  | '(' => some .parenOpen
  | ')' => some .parenClose
  | '[' => some .arrayOpen
  | ']' => some .arrayClose
  | _ => none

/-- The longest symbol at the front of a text. -/
def symbol? : List Char → Option Cut
  | [] => none
  | [c] => (singleSymbol? c).map fun k => ⟨.symbol k, [c], []⟩
  | c :: d :: rest =>
    match doubleSymbol? c d with
    | some k => some ⟨.symbol k, [c, d], rest⟩
    | none => (singleSymbol? c).map fun k => ⟨.symbol k, [c], d :: rest⟩

/-- Digits with at most one point among them. A sign or an exponent is not part of it. -/
def number? (cs : List Char) : Option Cut :=
  (Numeral.Mantissa.cut? cs).map fun (m, rest) => ⟨.number (m.value 0), m.spelling, rest⟩

/-- A name between braces, of at least one character. -/
def explicitWord? (body : List Char) : Option Cut :=
  match body.takeWhile (· != '\x7d'), body.dropWhile (· != '\x7d') with
  | name, close :: rest =>
    if name.isEmpty then none
    else some ⟨.word (String.ofList name) true, '$' :: '\x7b' :: (name ++ [close]), rest⟩
  | _, [] => none

/-- A run of word characters, or a name in the explicit form. -/
def word? : List Char → Option Cut
  | '$' :: '\x7b' :: body => explicitWord? body
  | cs =>
    let name := cs.takeWhile isWordCharacter
    if name.isEmpty then none
    else some ⟨.word (String.ofList name) false, name, cs.dropWhile isWordCharacter⟩

/-- Text between two equal quotes; nothing is escaped in it. -/
def text? : List Char → Option Cut
  | [] => none
  | quote :: body =>
    if isQuote quote then
      match body.takeWhile (· != quote), body.dropWhile (· != quote) with
      | inner, close :: rest =>
        some ⟨.text (String.ofList inner), quote :: (inner ++ [close]), rest⟩
      | _, [] => none
    else none

/-- A comment with the line feed that ends it, or a run of white space. -/
def trivia? : List Char → Option Cut
  | [] => none
  | c :: rest =>
    if c = '#' then
      match rest.takeWhile (· != '\n'), rest.dropWhile (· != '\n') with
      | inner, feed :: behind => some ⟨.trivia, '#' :: (inner ++ [feed]), behind⟩
      | inner, [] => some ⟨.trivia, '#' :: inner, []⟩
    else if Unicode.isBlank c then
      some ⟨.trivia, c :: rest.takeWhile Unicode.isBlank, rest.dropWhile Unicode.isBlank⟩
    else none

/-- The first class that takes something decides. -/
def cut? (cs : List Char) : Option Cut :=
  symbol? cs <|> number? cs <|> word? cs <|> text? cs <|> trivia? cs

/-- The spelling and the rest are the text that was cut. -/
def Cut.Of (x : Cut) (cs : List Char) : Prop := x.spelling ≠ [] ∧ x.spelling ++ x.rest = cs

theorem symbol?_of {cs : List Char} {x : Cut} (h : symbol? cs = some x) : x.Of cs := by
  unfold symbol? at h
  split at h
  · cases h
  · simp only [Option.map_eq_some_iff] at h
    obtain ⟨k, -, rfl⟩ := h
    simp [Cut.Of]
  · split at h
    · cases h; simp [Cut.Of]
    · simp only [Option.map_eq_some_iff] at h
      obtain ⟨k, -, rfl⟩ := h
      simp [Cut.Of]

theorem number?_of {cs : List Char} {x : Cut} (h : number? cs = some x) : x.Of cs := by
  simp only [number?, Option.map_eq_some_iff] at h
  obtain ⟨⟨m, rest⟩, hm, rfl⟩ := h
  obtain ⟨hcs, hd⟩ := Numeral.Mantissa.cut?_eq_some hm
  refine ⟨fun hs => hd ?_, hcs⟩
  have := m.length_digits_le
  simp_all

theorem explicitWord?_of {body : List Char} {x : Cut} (h : explicitWord? body = some x) :
    x.Of ('$' :: '\x7b' :: body) := by
  have hb := List.takeWhile_append_dropWhile (p := (· != '\x7d')) (l := body)
  unfold explicitWord? at h
  split at h
  · next close rest hrest =>
    split at h
    · cases h
    · cases h
      rw [hrest] at hb
      simp [Cut.Of, hb]
  · cases h

theorem word?_of {cs : List Char} {x : Cut} (h : word? cs = some x) : x.Of cs := by
  unfold word? at h
  split at h
  · exact explicitWord?_of h
  · dsimp only at h
    split at h
    · cases h
    · next hw => cases h; exact ⟨by simpa using hw, List.takeWhile_append_dropWhile⟩

theorem text?_of {cs : List Char} {x : Cut} (h : text? cs = some x) : x.Of cs := by
  unfold text? at h
  split at h
  · cases h
  · next quote body =>
    have hb := List.takeWhile_append_dropWhile (p := (· != quote)) (l := body)
    split at h
    · split at h
      · next close rest hrest =>
        cases h
        rw [hrest] at hb
        simp [Cut.Of, hb]
      · cases h
    · cases h

theorem trivia?_of {cs : List Char} {x : Cut} (h : trivia? cs = some x) : x.Of cs := by
  unfold trivia? at h
  split at h
  · cases h
  · next c rest =>
    split at h
    · next hc =>
      have hb := List.takeWhile_append_dropWhile (p := (· != '\n')) (l := rest)
      split at h
      · next feed behind hrest =>
        cases h
        rw [hrest] at hb
        simp [Cut.Of, hb, hc]
      · next hrest =>
        cases h
        rw [hrest] at hb
        simpa [Cut.Of, hc] using hb
    · split at h
      · cases h; simp [Cut.Of]
      · cases h

/-- Whatever is cut off is a nonempty beginning of the text. -/
theorem cut?_of {cs : List Char} {x : Cut} (h : cut? cs = some x) : x.Of cs := by
  unfold cut? at h
  simp only [HOrElse.hOrElse, OrElse.orElse, Option.orElse_eq_or,
    Option.or_eq_some_iff] at h
  rcases h with h | ⟨-, h | ⟨-, h | ⟨-, h | ⟨-, h⟩⟩⟩⟩
  · exact symbol?_of h
  · exact number?_of h
  · exact word?_of h
  · exact text?_of h
  · exact trivia?_of h

theorem Cut.Of.length_lt {x : Cut} {cs : List Char} (h : x.Of cs) : x.rest.length < cs.length := by
  have := congrArg List.length h.2
  have := List.length_pos_iff.2 h.1
  simp at *
  omega

end Lexeme
end Formula
