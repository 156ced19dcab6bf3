import CubeQuery.Yaml.Cursor
import CubeQuery.Yaml.Number

/-!
# Scalars in writing

A scalar is written plainly, in quotes, or as a block of lines. Within plain and quoted scalars a
line break counts as a space, and of several line breaks all but the first count.
-/

namespace CubeQuery.Yaml.Scalar

/-! ## Folding -/

/-- What the line breaks of a gap amount to. Only a line feed is folded away. -/
def foldBreaks : List Char → List Char
  | [] => []
  | b :: more => if b = '\n' then (if more.isEmpty then [' '] else more) else b :: more

/-- What a gap between two words amounts to. Blanks count only if there is no line break. -/
def foldGap (gap : List Char) : List Char :=
  if gap.any isBreak then foldBreaks (gap.filter isBreak) else gap

/-! ## Plain scalars -/

/-- The characters that separate the parts of a flow collection. -/
def isFlowMark (c : Char) : Bool := c = ',' || c = '[' || c = ']' || c = '\x7b' || c = '\x7d'

/-- The word at which a text starts. Inside a flow collection a colon must not stand right before
a mark. -/
def plainWord? (flow : Bool) : List Char → Option (List Char)
  | [] => some []
  | c :: cs =>
    if isGap c then some []
    else if c = ':' && flow && cs.head?.any (fun d => isFlowMark d || d = '?') then none
    else if c = ':' && startsWithGap cs then some []
    else if flow && isFlowMark c then some []
    else (plainWord? flow cs).map (c :: ·)

/-- A tab stands in the indentation of a line of a gap, which begins at the given column. -/
def hasTabInIndent (indent : Int) : (afterBreak : Bool) → (column : Nat) → List Char → Bool
  | _, _, [] => false
  | afterBreak, column, c :: cs =>
    if isBreak c then hasTabInIndent indent true 0 cs
    else (afterBreak && c = '\t' && column < indent)
      || hasTabInIndent indent afterBreak (column + 1) cs

/-- A scalar that has been read. -/
structure Read where
  text : List Char
  /-- Where the reading stopped. -/
  cursor : Cursor
  /-- It stopped behind a line break. -/
  afterBreak : Bool := false

/-- Reads a plain scalar on, with what has been read and the gap behind it. -/
def plainFrom? (flow : Bool) (indent : Int) (done gap : List Char) (c : Cursor) : Option Read := do
  let stop : Read := { text := done, cursor := c, afterBreak := gap.any isBreak }
  if c.atDocumentMark || c.rest.head? = some '#' then return stop
  let word ← plainWord? flow c.rest
  if word.isEmpty then return stop
  let done := done ++ foldGap gap ++ word
  let behind := c.skip word.length
  let gap := behind.rest.takeWhile isGap
  if gap.isEmpty then return { text := done, cursor := behind }
  if hasTabInIndent indent false behind.column gap then none
  let next := behind.skip gap.length
  if !flow && next.column < indent then
    return { text := done, cursor := next, afterBreak := gap.any isBreak }
  if next.rest.length < c.rest.length then plainFrom? flow indent done gap next else none
termination_by c.rest.length

/-! ## Quoted scalars -/

/-- The character that a letter behind a backslash stands for. -/
def escape? (c : Char) : Option Char :=
  [('0', '\x00'), ('a', '\x07'), ('b', '\x08'), ('t', '\t'), ('\t', '\t'), ('n', '\n'),
    ('v', '\x0b'), ('f', '\x0c'), ('r', '\r'), ('e', '\x1b'), (' ', ' '), ('"', '"'), ('/', '/'),
    ('\\', '\\'), ('N', '\u0085'), ('_', '\u00a0'), ('L', '\u2028'), ('P', '\u2029')].lookup c

/-- How many hexadecimal digits follow a letter behind a backslash. -/
def escapeWidth? (c : Char) : Option Nat := [('x', 2), ('u', 4), ('U', 8)].lookup c

/-- The character with the number that hexadecimal digits write. -/
def codePoint? (digits : List Char) : Option Char := do
  let n ← Number.natural? 16 digits
  if n.isValidChar then some (Char.ofNat n) else none

/-- A run of a quoted scalar up to a gap or the closing quote. -/
structure Run where
  text : List Char
  rest : List Char
  /-- The run ended with a line break behind a backslash. -/
  joined : Bool := false

/-- The run of a single-quoted scalar. A doubled quote stands for one. -/
def singleRun : List Char → Run
  | [] => ⟨[], [], false⟩
  | ['\''] => ⟨[], ['\''], false⟩
  | '\'' :: d :: cs =>
    if d = '\'' then
      let r := singleRun cs
      { r with text := '\'' :: r.text }
    else ⟨[], '\'' :: d :: cs, false⟩
  | c :: cs =>
    if isGap c then ⟨[], c :: cs, false⟩
    else
      let r := singleRun cs
      { r with text := c :: r.text }

/-- The run of a double-quoted scalar. A backslash that begins no escape is refused. -/
def doubleRun? (cs : List Char) : Option Run :=
  match cs with
  | [] => some ⟨[], [], false⟩
  | '\\' :: [] => none
  | '\\' :: d :: rest =>
    if isBreak d then some ⟨[], rest, true⟩
    else match escapeWidth? d with
      | some width => do
        if rest.length < width then none
        let c ← codePoint? (rest.take width)
        let r ← doubleRun? (rest.drop width)
        return { r with text := c :: r.text }
      | none => do
        let c ← escape? d
        let r ← doubleRun? rest
        return { r with text := c :: r.text }
  | c :: rest =>
    if c = '"' || isGap c then some ⟨[], c :: rest, false⟩
    else do
      let r ← doubleRun? rest
      return { r with text := c :: r.text }
termination_by cs.length

/-- Reads a quoted scalar on behind its opening quote. It has to be closed before the document
ends. -/
def quotedFrom? (double : Bool) (done : List Char) (c : Cursor) : Option Read := do
  if c.atDocumentMark then none
  let run ← if double then doubleRun? c.rest else some (singleRun c.rest)
  let behind := c.skipTo run.rest
  let done := done ++ run.text
  if behind.rest.head? = some (if double then '"' else '\'') then
    return { text := done, cursor := behind.skip 1 }
  let gap := behind.rest.takeWhile isGap
  let done := done ++ (if run.joined then gap.filter isBreak else foldGap gap)
  let next := behind.skip gap.length
  if next.rest.length < c.rest.length then quotedFrom? double done next else none
termination_by c.rest.length

/-! ## Block scalars -/

/-- What becomes of the line breaks at the end of a block. -/
inductive Chomp where
  | strip
  | clip
  | keep
  deriving DecidableEq, Repr

def chomp? (c : Char) : Option Chomp :=
  if c = '+' then some .keep else if c = '-' then some .strip else none

/-- The indentation that a digit from 1 to 9 asks for. -/
def increment? (c : Char) : Option Nat :=
  if '1' ≤ c ∧ c ≤ '9' then some (c.toNat - '0'.toNat) else none

/-- The two marks that may follow the mark of a block, in either order. -/
def blockHeader (cs : List Char) : Chomp × Option Nat × List Char :=
  match cs with
  | c :: rest =>
    match chomp? c with
    | some m =>
      match rest.head?.bind increment? with
      | some n => (m, some n, rest.tail)
      | none => (m, none, rest)
    | none =>
      match increment? c with
      | some n =>
        match rest.head?.bind chomp? with
        | some m => (m, some n, rest.tail)
        | none => (.clip, some n, rest)
      | none => (.clip, none, cs)
  | [] => (.clip, none, [])

/-- The empty lines at which a text starts. -/
structure EmptyLines where
  breaks : List Char
  /-- The column of the first character that is not indentation. -/
  column : Nat
  /-- The widest indentation among the lines. -/
  widest : Nat
  rest : List Char

/-- Reads empty lines and the indentation behind them. The indentation is at most `indent` wide, if
that is known. -/
def emptyLines? (indent : Option Nat) (column widest : Nat) : List Char → Option EmptyLines
  | [] => some ⟨[], column, max widest column, []⟩
  | c :: cs =>
    let inIndent := match indent with
      | none => true
      | some n => decide (column < n)
    if c = ' ' && inIndent then emptyLines? indent (column + 1) widest cs
    else if c = '\t' && inIndent then none
    else if isBreak c then
      (emptyLines? indent 0 (max widest column) cs).map fun l => { l with breaks := c :: l.breaks }
    else some ⟨[], column, max widest column, c :: cs⟩

/-- Reads the lines of a block on from the start of a line, with what has been read, the break that
ended it and the empty lines behind it. -/
def blockFrom? (literal : Bool) (chomp : Chomp) (indent : Nat) (done ended : List Char)
    (wasSpaced : Bool) (lines : EmptyLines) : Option (List Char × List Char) :=
  if lines.column ≠ indent || lines.rest.isEmpty then
    some (done ++ (if chomp = .strip then [] else ended)
      ++ (if chomp = .keep then lines.breaks else []), lines.rest)
  else
    let spaced := lines.rest.head?.any isSpace
    let joint :=
      if !literal && ended.head? = some '\n' && !wasSpaced && !spaced then
        if lines.breaks.isEmpty then [' '] else []
      else ended
    let line := lines.rest.takeWhile (!isBreak ·)
    let behind := lines.rest.dropWhile (!isBreak ·)
    let column := if behind.isEmpty then indent + line.length else 0
    match emptyLines? (some indent) column 0 (behind.drop 1) with
    | none => none
    | some next =>
      if next.rest.length < lines.rest.length then
        blockFrom? literal chomp indent (done ++ joint ++ lines.breaks ++ line) (behind.take 1)
          spaced next
      else none
termination_by lines.rest.length

/-- Reads a block scalar behind its mark, in a collection of the given indentation. -/
def block? (literal : Bool) (parent : Int) (c : Cursor) : Option Read := do
  let (chomp, increment, rest) := blockHeader c.rest
  let rest := rest.dropWhile isSpace
  let rest := if rest.head? = some '#' then rest.dropWhile (!isBreak ·) else rest
  if rest.head?.any (!isBreak ·) then none
  let column := if rest.isEmpty then c.column + (c.rest.length - rest.length) else 0
  let known := increment.map fun n => if 0 ≤ parent then parent.toNat + n else n
  let lines ← emptyLines? known column 0 (rest.drop 1)
  let indent := known.getD (max (max lines.widest (parent + 1).toNat) 1)
  let (text, rest) ← blockFrom? literal chomp indent [] [] false lines
  return { text, cursor := c.skipTo rest }

end CubeQuery.Yaml.Scalar
