/-!
# Places in a YAML text

A cursor is the text still to be read, with the line and the column at which it starts.
-/

namespace CubeQuery.Yaml

/-- A line break. Other spellings of a line feed have been replaced by it before. -/
def isBreak (c : Char) : Bool := c = '\n' || c = '\u2028' || c = '\u2029'

/-- A blank inside a line. -/
def isSpace (c : Char) : Bool := c = ' ' || c = '\t'

/-- A character at which a word ends. -/
def isGap (c : Char) : Bool := isSpace c || isBreak c

/-- The text is over or goes on with a gap. -/
def startsWithGap : List Char → Bool
  | [] => true
  | c :: _ => isGap c

/-- The characters that a YAML text may hold. -/
def isAllowed (c : Char) : Bool :=
  let n := c.toNat
  n = 0x09 || n = 0x0A || n = 0x0D || (0x20 ≤ n && n ≤ 0x7E) || n = 0x85 ||
    (0xA0 ≤ n && n ≤ 0xFFFD) || 0x10000 ≤ n

/-- The text with each line end spelled by one line feed. -/
def unifyBreaks : List Char → List Char
  | [] => []
  | '\r' :: '\n' :: cs => '\n' :: unifyBreaks cs
  | '\r' :: cs => '\n' :: unifyBreaks cs
  | '\u0085' :: cs => '\n' :: unifyBreaks cs
  | c :: cs => c :: unifyBreaks cs

structure Cursor where
  rest : List Char
  line : Nat := 0
  column : Nat := 0
  /-- How many bytes of UTF-8 have been read. -/
  index : Nat := 0
  deriving Repr

namespace Cursor

/-- The cursor behind its first `n` characters. -/
def skip (c : Cursor) : Nat → Cursor
  | 0 => c
  | n + 1 =>
    match c.rest with
    | [] => c
    | ch :: rest =>
      let index := c.index + ch.utf8Size
      if isBreak ch then skip { rest, line := c.line + 1, column := 0, index } n
      else skip { c with rest, column := c.column + 1, index } n

/-- The cursor at a later part of its text. -/
def skipTo (c : Cursor) (rest : List Char) : Cursor := c.skip (c.rest.length - rest.length)

/-- A line that begins with three of a mark and then a gap. -/
def atMark (c : Cursor) (mark : Char) : Bool :=
  c.column = 0 && c.rest.take 3 = [mark, mark, mark] && startsWithGap (c.rest.drop 3)

/-- A line that begins or ends a document. -/
def atDocumentMark (c : Cursor) : Bool := c.atMark '-' || c.atMark '.'

end Cursor
end CubeQuery.Yaml
