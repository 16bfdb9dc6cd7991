import Cognate.Diagnostic.Basic
import Cognate.Source.Lines

/-! # Rendered diagnostics

A diagnostic as text: the headline, the place, the lines of the place with a mark under them, and notes. The numbers of
lines stand in a gutter as wide as the largest number shown. A place on one line is underlined; a place on several lines
has a bar on its left from the first line to the last, of which only the first few and the last ones are shown. -/

namespace Cognate.Diagnostic

/-! ## Gutters -/

/-- A number right-aligned in the gutter. -/
def numbered (gutter number : Nat) : String :=
  let digits := Nat.toDigits 10 number
  String.ofList (List.replicate (gutter - digits.length) ' ' ++ digits) ++ " │"

/-- The gutter of a line without a number. -/
def unnumbered (gutter : Nat) : String := String.ofList (List.replicate gutter ' ') ++ " │"

/-- The gutter where lines are left out. -/
def skipped (gutter : Nat) : String := String.ofList (List.replicate gutter ' ') ++ " ·"

/-- Digits of a number. -/
def digitCount (n : Nat) : Nat := (Nat.toDigits 10 n).length

/-- The visible text of a line, behind its mark. -/
def sourceText (cs : List Char) : String := " " ++ String.ofList ((glyphs cs).flatMap Glyph.shown)

/-- A message behind a mark, with a blank unless it is empty. -/
def behindMark (message : String) : String := if message.isEmpty then "" else " " ++ message

/-- The glyphs of a line and one more column for its end. -/
def withEnd (cs : List Char) : List Glyph :=
  glyphs cs ++ [⟨byteLength cs, 1, 1, '\x00'⟩]

/-- The byte behind another; there is none behind the last of 64 bits, and counting starts over. -/
def nextByte (byte : Nat) : Nat := (byte + 1) % Nat.pow 2 64

/-! ## Places on one line -/

/-- Marks under the glyphs of `start` to `stop`, blanks up to them. -/
def underline (cs : List Char) (start stop : Nat) : String :=
  String.ofList <| (withEnd cs).flatMap fun g =>
    if start < g.start + g.size && g.start < stop then List.replicate g.width '^'
    else if g.start < stop then List.replicate g.width ' '
    else []

/-- One line and the mark under it. At least one byte is marked. -/
def singleLine (gutter index : Nat) (line : Line) (span : Span) (message : String) : List String :=
  let cs := line.visible
  let start := span.start - line.start
  let stop := max (span.stop - line.start) (nextByte start)
  [unnumbered gutter, numbered gutter (index + 1) ++ sourceText cs,
   unnumbered gutter ++ " " ++ underline cs start stop ++ behindMark message]

/-! ## Places on several lines -/

/-- Lines shown behind the first one. -/
def leadingContext : Nat := 3

/-- Lines shown in front of the last one. -/
def trailingContext : Nat := 1

/-- A line of the place between its first and its last is shown. -/
def isShown (first last index : Nat) : Bool := index - first ≤ leadingContext || last - index ≤ trailingContext

/-- A horizontal bar as wide as the glyphs up to a byte, the one that starts there included or not. -/
def bar (cs : List Char) (byte : Nat) : String :=
  String.ofList (List.replicate (totalWidth ((glyphs cs).takeWhile (·.start < byte))) '─')

/-- The first line: the bar starts in front of it if the place does, and otherwise under it. -/
def firstLine (gutter index : Nat) (line : Line) (start : Nat) : List String :=
  let cs := line.visible
  if start ≤ leadingBlank cs then [numbered gutter (index + 1) ++ " ╭" ++ sourceText cs]
  else
    [numbered gutter (index + 1) ++ "  " ++ sourceText cs,
     unnumbered gutter ++ " ╭" ++ bar cs (nextByte start) ++ "^"]

/-- A line with the bar on its left. -/
def middleLine (gutter index : Nat) (line : Line) : String :=
  numbered gutter (index + 1) ++ " │" ++ sourceText line.visible

/-- The lines between the first and the last, with their numbers. One line left out between two shown ones is shown
after all, several are one line of dots. -/
def middleLines (gutter first last : Nat) (lines : List Line) : List String :=
  let hidden := (List.range (last - first - 1)).filter fun k => !isShown first last (first + 1 + k)
  (lines.zipIdx (first + 1)).filterMap fun (line, index) =>
    if isShown first last index || hidden.length ≤ 1 then some (middleLine gutter index line)
    else if index == first + 1 + leadingContext then some (skipped gutter ++ " │")
    else none

/-- The last line and the end of the bar under it. -/
def lastLine (gutter index : Nat) (line : Line) (stop : Nat) (message : String) : List String :=
  [middleLine gutter index line,
   unnumbered gutter ++ " ╰" ++ bar line.visible stop ++ "^" ++ behindMark message]

/-! ## Whole diagnostics -/

/-- Lines between an end and a start behind it: a single one without a bar, several as dots beside the bar that the end
has opened. -/
def gapLines (gutter first : Nat) (lines : List Line) : List String :=
  match lines with
  | [] => []
  | [line] => [numbered gutter (first + 1) ++ "  " ++ sourceText line.visible]
  | _ => [skipped gutter ++ " │"]

/-- The lines of a place, with marks: `first` and `last` are the lines where it starts and ends. A place that ends in
front of its start is shown from its end on. -/
def placeLines (gutter first last : Nat) (lines : List Line) (top bottom : Line) (label : Label) : List String :=
  let start := label.span.start - top.start
  let stop := label.span.stop - bottom.start
  let between (before behind : Nat) : List Line := (lines.drop (before + 1)).take (behind - before - 1)
  if first = last then singleLine gutter first top label.span label.message
  else
    let opening := firstLine gutter first top start
    let closing := lastLine gutter last bottom stop label.message
    [unnumbered gutter ++ "  "] ++
      if first < last then opening ++ middleLines gutter first last (between first last) ++ closing
      else closing ++ gapLines gutter (last + 1) (between last first) ++ opening

/-- The part that shows the text of a place. -/
def snippet (file : SourceFile) (label : Label) : List String :=
  let lines := Line.ofText file.text
  let first := lineIndex lines label.span.start
  let last := lineIndex lines label.span.stop
  let gutter := max (digitCount (first + 1)) (digitCount (last + 1))
  match lines[first]?, lines[last]? with
  | some top, some bottom =>
    let column := ((glyphs top.chars).filter fun g => top.start + g.start + g.size ≤ label.span.start).length + 1
    let place := s!"{file.name}:{first + 1}:{column}"
    (String.ofList (List.replicate gutter ' ') ++ " ┌─ " ++ place) ::
      placeLines gutter first last lines top bottom label
  | _, _ => []

/-- A line without its end: a line feed, and a carriage return in front of it. -/
def withoutEnd (cs : List Char) : List Char :=
  match cs.reverse with
  | '\n' :: '\r' :: rest => rest.reverse
  | '\n' :: rest => rest.reverse
  | _ => cs

/-- The lines of a text; the last one counts only if it is not empty. -/
def noteLines (text : String) : List String :=
  ((Line.cut text.toList).filter fun cs => !cs.isEmpty).map fun cs => String.ofList (withoutEnd cs)

/-- A note, its further lines indented. -/
def noteText (note : String) : List String :=
  (noteLines note).zipIdx.map fun (line, k) => (if k == 0 then " = " else "   ") ++ line

/-- The diagnostic as text; `none` if the file it points into is not known. -/
def render (d : Diagnostic) (files : List SourceFile) : Option String :=
  let snippet? :=
    match d.label with
    | none => some []
    | some label => (files[label.file]?).map fun file => snippet file label
  snippet?.map fun shown =>
    String.join ((["error: " ++ d.title] ++ shown ++ d.notes.flatMap noteText ++ [""]).map (· ++ "\n"))

end Diagnostic

/-- The rendered report on a file; the report on one line if the file is not known. -/
def Report.render (r : Report) (file : Nat) (files : List SourceFile) : String :=
  ((r.diagnostic file).render files).getD r.text

end Cognate
