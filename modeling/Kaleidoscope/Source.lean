/-!
# Places in a source text

Offsets count the bytes of the text's UTF-8 form. A place counts lines by newlines and columns by
characters, both from one.
-/

namespace Kaleidoscope

/-- The bytes from `start` up to but not including `stop`. -/
structure Span where
  start : Nat
  stop : Nat
deriving DecidableEq

/-- A value with the part of the source that it came from. -/
structure Located (α : Type) where
  value : α
  span : Span

/-- A line and a column, counted from one. -/
structure Place where
  line : Nat
  column : Nat
deriving DecidableEq

/-- A message about a part of the source. -/
structure Diagnostic where
  message : String
  span : Span
deriving DecidableEq

namespace Source

/-- The number of bytes of a text. -/
def size : List Char → Nat
  | [] => 0
  | c :: rest => c.utf8Size + size rest

/-- The place behind `c`, when `c` stands at `place`. -/
def next (place : Place) (c : Char) : Place :=
  if c = '\n' then ⟨place.line + 1, 1⟩ else ⟨place.line, place.column + 1⟩

/-- The place of `offset`, when the text starts at `place`. Every character that ends at or before
the offset is passed, so an offset beyond the text gets the place of its end. -/
def placeFrom (place : Place) : List Char → Nat → Place
  | [], _ => place
  | c :: rest, offset =>
    if c.utf8Size ≤ offset then placeFrom (next place c) rest (offset - c.utf8Size) else place

/-- The place of a byte offset. -/
def place (text : List Char) (offset : Nat) : Place := placeFrom ⟨1, 1⟩ text offset

/-- Does the offset lie between two characters, or at or beyond either end? -/
def isBoundary : List Char → Nat → Bool
  | [], _ => true
  | c :: rest, offset =>
    offset = 0 || (c.utf8Size ≤ offset && isBoundary rest (offset - c.utf8Size))

end Source

/-- One line for each diagnostic, in order. -/
def Diagnostic.report (diagnostics : List Diagnostic) : String :=
  String.join (diagnostics.map fun d => s!"ERROR: {d.message} at position {d.span.start}\n")

end Kaleidoscope
