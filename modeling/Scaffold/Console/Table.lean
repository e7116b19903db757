import Scaffold.Console.Markup

/-! # Tables on the console

A table has a title, two or more columns with headings, and rows of marked-up cells. Columns are as
wide as their widest line, in places on the console: some characters take two places and some none.
-/

namespace Scaffold.Console

/-- The first and the last character of the ranges that take two places. -/
def wideRanges : List (Nat × Nat) :=
  [(0x1100, 0x115F), (0x231A, 0x231B), (0x2329, 0x232A), (0x23E9, 0x23EC), (0x23F0, 0x23F0),
    (0x23F3, 0x23F3), (0x25FD, 0x25FE), (0x2614, 0x2615), (0x2648, 0x2653), (0x267F, 0x267F),
    (0x2693, 0x2693), (0x26A1, 0x26A1), (0x26AA, 0x26AB), (0x26BD, 0x26BE), (0x26C4, 0x26C5),
    (0x26CE, 0x26CE), (0x26D4, 0x26D4), (0x26EA, 0x26EA), (0x26F2, 0x26F3), (0x26F5, 0x26F5),
    (0x26FA, 0x26FA), (0x26FD, 0x26FD), (0x2705, 0x2705), (0x270A, 0x270B), (0x2728, 0x2728),
    (0x274C, 0x274C), (0x274E, 0x274E), (0x2753, 0x2755), (0x2757, 0x2757), (0x2795, 0x2797),
    (0x27B0, 0x27B0), (0x27BF, 0x27BF), (0x2B1B, 0x2B1C), (0x2B50, 0x2B50), (0x2B55, 0x2B55),
    (0x2E80, 0x303E), (0x3041, 0x33FF), (0x3400, 0x4DBF), (0x4E00, 0xA4CF), (0xA960, 0xA97C),
    (0xAC00, 0xD7A3), (0xF900, 0xFAFF), (0xFE10, 0xFE19), (0xFE30, 0xFE6F), (0xFF01, 0xFF60),
    (0xFFE0, 0xFFE6), (0x16FE0, 0x18AFF), (0x1B000, 0x1B2FB), (0x1F004, 0x1F004), (0x1F0CF, 0x1F0CF),
    (0x1F18E, 0x1F18E), (0x1F191, 0x1F19A), (0x1F200, 0x1F320), (0x1F32D, 0x1F335), (0x1F337, 0x1F37C),
    (0x1F37E, 0x1F393), (0x1F3A0, 0x1F3CA), (0x1F3CF, 0x1F3D3), (0x1F3E0, 0x1F3F0), (0x1F3F4, 0x1F3F4),
    (0x1F3F8, 0x1F43E), (0x1F440, 0x1F440), (0x1F442, 0x1F4FC), (0x1F4FF, 0x1F53D), (0x1F54B, 0x1F567),
    (0x1F57A, 0x1F57A), (0x1F595, 0x1F596), (0x1F5A4, 0x1F5A4), (0x1F5FB, 0x1F64F), (0x1F680, 0x1F6C5),
    (0x1F6CC, 0x1F6CC), (0x1F6D0, 0x1F6D2), (0x1F6D5, 0x1F6D7), (0x1F6EB, 0x1F6EC), (0x1F6F4, 0x1F6FC),
    (0x1F7E0, 0x1F7EB), (0x1F90C, 0x1F93A), (0x1F93C, 0x1F945), (0x1F947, 0x1F9FF), (0x1FA70, 0x1FAF6),
    (0x20000, 0x3FFFD)]

/-- The first and the last character of the ranges that take no place. -/
def narrowRanges : List (Nat × Nat) :=
  [(0, 31), (127, 159), (0x300, 0x36F), (0x483, 0x489), (0x591, 0x5BD), (0x610, 0x61A), (0x64B, 0x65F),
    (0x200B, 0x200F), (0x2028, 0x202E), (0x2060, 0x2063), (0x20D0, 0x20F0), (0xFE00, 0xFE0F),
    (0xFE20, 0xFE2F)]

/-- The number of places that a character takes. -/
def charPlaces (c : Char) : Nat :=
  let among (ranges : List (Nat × Nat)) := ranges.any fun range => range.1 ≤ c.toNat && c.toNat ≤ range.2
  if 32 ≤ c.toNat && c.toNat < 127 then 1
  else if among narrowRanges then 0
  else if among wideRanges then 2
  else 1

/-- The number of places that a text takes. -/
def places (text : List Char) : Nat := text.foldl (fun total c => total + charPlaces c) 0

def blanks (count : Nat) : List Char := List.replicate count ' '

/-- A text with blanks behind it up to a width. -/
def padded (width : Nat) (text : List Char) : List Char := text ++ blanks (width - places text)

/-- A text in the middle of a width. -/
def centred (width : Nat) (text : List Char) : List Char :=
  let left := (width - places text) / 2
  padded width (blanks left ++ text)

/-- The lines of a text. -/
def linesOf : List Char → List (List Char)
  | [] => [[]]
  | c :: rest =>
    match linesOf rest with
    | [] => [[c]]
    | line :: later => if c = '\n' then [] :: line :: later else (c :: line) :: later

/-- The words of a line, without the blanks between them. -/
def wordsOf : List Char → List (List Char)
  | [] => []
  | c :: rest =>
    if c = ' ' then wordsOf rest
    else match rest with
      | [] => [[c]]
      | d :: _ =>
        if d = ' ' then [c] :: wordsOf rest
        else match wordsOf rest with
          | [] => [[c]]
          | word :: later => (c :: word) :: later

/-- Fills lines of a width with words; `line` is the line begun. -/
def fillLines (width : Nat) (line : List Char) : List (List Char) → List (List Char)
  | [] => [line]
  | word :: later =>
    if line.isEmpty then fillLines width word later
    else if places line + 1 + places word ≤ width then fillLines width (line ++ ' ' :: word) later
    else line :: fillLines width word later

/-- A line that ends, begins and is divided by the given characters. -/
def rule (left fill middle right : Char) (widths : List Nat) : List Char :=
  left :: [middle].intercalate (widths.map fun width => List.replicate (width + 2) fill) ++ [right]

/-- One line of a row. -/
def rowLine (bar : Char) (widths : List Nat) (cells : List (List Char)) : List Char :=
  bar :: (widths.zip cells).flatMap fun (width, cell) => ' ' :: padded width cell ++ [' ', bar]

/-- The lines of a row; the cells may have several. -/
def rowLines (widths : List Nat) (row : List (List (List Char))) : List (List Char) :=
  let height := row.foldl (fun height cell => max height cell.length) 1
  (List.range height).map fun index => rowLine '│' widths (row.map fun cell => (cell[index]?).getD [])

/-- A table in lines, of which each ends in a line feed. -/
def tableText (title : List Char) (headings : List (List Char)) (rows : List (List (List Char))) : String :=
  let rows := rows.map fun row => row.map linesOf
  let widths := rows.foldl
    (fun widths row => (widths.zip row).map fun (width, cell) => cell.foldl (fun width line => max width (places line)) width)
    (headings.map places)
  let total := widths.foldl (fun total width => total + width + 3) 1
  let titleLines := if title.isEmpty then [] else
    if places title ≤ total then [centred total title] else (fillLines total [] (wordsOf title)).map (centred total)
  let lines := titleLines ++
    [rule '┏' '━' '┳' '┓' widths, rowLine '┃' widths headings, rule '┡' '━' '╇' '┩' widths] ++
    rows.flatMap (rowLines widths) ++ [rule '└' '─' '┴' '┘' widths]
  String.ofList (lines.flatMap fun line => line ++ ['\n'])

/-- A table whose title and cells are marked up. -/
def showTable (title : String) (headings : List String) (rows : List (List String)) :
    Except MarkupFault String := do
  let title ← showMarkup title
  let rows ← rows.mapM fun row => row.mapM fun cell => do return (← showMarkup cell).toList
  return tableText title.toList (headings.map String.toList) rows

/-- Pairs with distinct keys: a later value replaces an earlier one in its place. -/
def distinctRows (rows : List (String × String)) : List (String × String) :=
  rows.foldl
    (fun kept row =>
      if kept.any (·.1 = row.1) then kept.map fun old => if old.1 = row.1 then row else old
      else kept ++ [row])
    []

/-- A table of keys and values, with an empty line behind it. -/
def summaryTable (title : String) (rows : List (String × String)) : Except MarkupFault String := do
  let table ← showTable title ["Item", "Value"] ((distinctRows rows).map fun row => [row.1, row.2])
  return table ++ "\n"

end Scaffold.Console
