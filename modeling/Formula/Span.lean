/-!
Places in an expression text. A place counts bytes for slicing and characters for people:
lines and columns start at one.
-/
namespace Formula

/-- A stretch of text, with the line and the column at which it begins. -/
structure Span where
  start : Nat
  stop : Nat
  line : Nat
  column : Nat
  deriving DecidableEq, Inhabited

namespace Span

/-- The empty span at an offset. -/
def point (offset line column : Nat) : Span := ⟨offset, offset, line, column⟩

/-- A span that ends before it starts has no bytes. -/
def length (s : Span) : Nat := s.stop - s.start

def isEmpty (s : Span) : Bool := s.length == 0

/-- A span reads as its line and column. -/
def text (s : Span) : String := toString s.line ++ ":" ++ toString s.column

@[simp] theorem length_point (offset line column : Nat) : (point offset line column).length = 0 := by
  simp [point, length]

@[simp] theorem isEmpty_point (offset line column : Nat) :
    (point offset line column).isEmpty = true := by simp [isEmpty]

end Span

/-- How far into a text a reader has come. -/
structure Place where
  offset : Nat
  line : Nat
  column : Nat
  deriving DecidableEq, Inhabited

namespace Place

def origin : Place := ⟨0, 1, 1⟩

/-- A line feed starts a new line, every other character is one column wide. -/
def step (p : Place) (c : Char) : Place :=
  if c = '\n' then ⟨p.offset + c.utf8Size, p.line + 1, 1⟩
  else ⟨p.offset + c.utf8Size, p.line, p.column + 1⟩

def advance (p : Place) (cs : List Char) : Place := cs.foldl step p

/-- The span of the characters that begin at this place. -/
def spanOf (p : Place) (cs : List Char) : Span :=
  ⟨p.offset, (p.advance cs).offset, p.line, p.column⟩

@[simp] theorem advance_nil (p : Place) : p.advance [] = p := rfl

@[simp] theorem advance_cons (p : Place) (c : Char) (cs : List Char) :
    p.advance (c :: cs) = (p.step c).advance cs := rfl

theorem advance_append (p : Place) (as bs : List Char) :
    p.advance (as ++ bs) = (p.advance as).advance bs := List.foldl_append

@[simp] theorem offset_step (p : Place) (c : Char) : (p.step c).offset = p.offset + c.utf8Size := by
  simp only [step]; split <;> rfl

/-- The offset grows by the bytes passed over. -/
theorem offset_advance (p : Place) (cs : List Char) :
    (p.advance cs).offset = p.offset + (String.ofList cs).utf8ByteSize := by
  induction cs generalizing p with
  | nil => simp
  | cons c cs ih => simp [ih, String.ofList_cons, Nat.add_assoc]

end Place
end Formula
