import Cognate.Source.Span
import Cognate.Text.Blank
import Cognate.Text.Columns

/-! # Lines of a text

A text as its lines, each with the byte it starts at, and a line as glyphs, each with its bytes and the columns it takes
on a terminal. -/

namespace Cognate

/-- A named text. -/
structure SourceFile where
  name : String
  text : String
deriving Repr

/-- A line with its end, and the byte it starts at. -/
structure Line where
  start : Nat
  chars : List Char
deriving Repr

namespace Line

/-- Cuts a text behind each line end; the last line may be empty. -/
def cut : List Char → List (List Char)
  | [] => [[]]
  | c :: cs =>
    if c = '\n' then [c] :: cut cs
    else
      match cut cs with
      | [] => [[c]]
      | l :: ls => (c :: l) :: ls

/-- Lines one after the other from byte `start` on. -/
def place (start : Nat) : List (List Char) → List Line
  | [] => []
  | l :: ls => ⟨start, l⟩ :: place (start + byteLength l) ls

/-- All lines of a text, at least one. -/
def ofText (text : String) : List Line := place 0 (cut text.toList)

/-- Without line ends and null characters at the end. -/
def visible (l : Line) : List Char :=
  (l.chars.reverse.dropWhile fun c => c == '\n' || c == '\r' || c == '\x00').reverse

end Line

/-- The number of the line, counted from zero, that a byte belongs to; the last one for bytes behind the text. -/
def lineIndex (lines : List Line) (byte : Nat) : Nat := (lines.filter (·.start ≤ byte)).length - 1

/-! ## Glyphs -/

/-- A character of a line: its first byte, counted from the start of the line, its bytes, and its columns. -/
structure Glyph where
  start : Nat
  size : Nat
  width : Nat
  char : Char
deriving Repr

/-- Columns between the stops of tabs. -/
def tabWidth : Nat := 4

/-- Characters from a byte and a column on; tabs reach to the next stop. -/
def glyphsFrom (byte column : Nat) : List Char → List Glyph
  | [] => []
  | c :: cs =>
    let width := if c = '\t' then tabWidth - column % tabWidth else Text.columns c
    ⟨byte, c.utf8Size, width, c⟩ :: glyphsFrom (byte + c.utf8Size) (column + width) cs

def glyphs (cs : List Char) : List Glyph := glyphsFrom 0 0 cs

/-- A glyph on a terminal: tabs as blanks. -/
def Glyph.shown (g : Glyph) : List Char := if g.char = '\t' then List.replicate g.width ' ' else [g.char]

/-- Columns of some glyphs. -/
def totalWidth (gs : List Glyph) : Nat := gs.foldr (fun g n => g.width + n) 0

/-- Bytes of the blanks that a line starts with. -/
def leadingBlank (cs : List Char) : Nat := byteLength (cs.takeWhile Text.isBlank)

end Cognate
