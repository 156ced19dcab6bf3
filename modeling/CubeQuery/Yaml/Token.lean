import CubeQuery.Yaml.Scalar

/-!
# YAML tokens

The tokens of a text. Indentation becomes tokens of its own: the start of a block collection stands
where its first entry is indented further than what surrounds it, and its end where the
indentation falls back. Whether a scalar is a key shows only at the colon behind it, and then the
tokens that announce a key are put in front of it.
-/

namespace CubeQuery.Yaml

inductive Token where
  | documentStart
  | documentEnd
  | blockSequence
  | blockMapping
  | blockEnd
  | blockEntry
  | flowSequence
  | flowSequenceEnd
  | flowMapping
  | flowMappingEnd
  | flowEntry
  | key
  | value
  | scalar (plain : Bool) (text : String)
  deriving DecidableEq, Repr

/-- A place where a key may have started. -/
structure KeyStart where
  /-- Nothing but a key can stand there. -/
  required : Bool
  /-- How many tokens stand before it. -/
  tokens : Nat
  line : Nat
  column : Nat
  index : Nat
  deriving Repr

/-- The state of a scan. -/
structure Scan where
  cursor : Cursor
  /-- The tokens so far, the last one first. -/
  tokens : List Token := []
  /-- The indentation of the innermost block collection, -1 outside of all. -/
  indent : Int := -1
  /-- The indentations around it, the innermost first. -/
  outer : List Int := []
  /-- A key may start here. -/
  keyAllowed : Bool := true
  /-- Where a key may have started in the current collection. -/
  keyStart : Option KeyStart := none
  /-- The same for each collection around the current flow collection. -/
  flows : List (Option KeyStart) := []

namespace Scan

/-- Inside a flow collection. -/
def inFlow (s : Scan) : Bool := !s.flows.isEmpty

def push (s : Scan) (t : Token) : Scan := { s with tokens := t :: s.tokens }

/-- Puts a token behind the first `n` tokens. -/
def insertAt (s : Scan) (n : Nat) (t : Token) : Scan :=
  { s with tokens := s.tokens.insertIdx (s.tokens.length - n) t }

def skip (s : Scan) (n : Nat) : Scan := { s with cursor := s.cursor.skip n }

/-! ## Gaps -/

/-- What has been read of a line of a gap. -/
inductive GapLine where
  | start
  | blanks
  | comment
  deriving DecidableEq, Repr

/-- Skips blanks, comments and line breaks. A byte order mark may start a line. In a block, a line
break makes room for a key, and a tab must not stand where a key may start. -/
def skipGaps (inFlow : Bool) : GapLine → (allowed : Bool) → List Char → Bool × List Char
  | _, allowed, [] => (allowed, [])
  | line, allowed, c :: cs =>
    if isBreak c then skipGaps inFlow .start (allowed || !inFlow) cs
    else if line = .comment || c = '#' then skipGaps inFlow .comment allowed cs
    else if c = ' ' || (c = '\t' && (inFlow || !allowed)) || (c = '\uFEFF' && line = .start) then
      skipGaps inFlow .blanks allowed cs
    else (allowed, c :: cs)

def toToken (s : Scan) : Scan :=
  let line : GapLine := if s.cursor.column = 0 then .start else .blanks
  let (allowed, rest) := skipGaps s.inFlow line s.keyAllowed s.cursor.rest
  { s with keyAllowed := allowed, cursor := s.cursor.skipTo rest }

/-! ## Keys -/

/-- Forgets where a key may have started, unless it is required there. -/
def forget? (k : Option KeyStart) : Option (Option KeyStart) :=
  match k with
  | some k => if k.required then none else some none
  | none => some none

/-- A key lies on one line and its colon not more than 1024 bytes behind its start. -/
def fresh? (c : Cursor) (k : Option KeyStart) : Option (Option KeyStart) :=
  match k with
  | some start =>
    if start.line < c.line || start.index + 1024 < c.index then forget? k else some k
  | none => some none

/-- Forgets the places where a key can no longer have started. -/
def dropStale? (s : Scan) : Option Scan := do
  return { s with
    keyStart := ← fresh? s.cursor s.keyStart, flows := ← s.flows.mapM (fresh? s.cursor) }

def forgetKey? (s : Scan) : Option Scan := do
  return { s with keyStart := ← forget? s.keyStart }

/-- Marks the place as one where a key may start. -/
def markKey? (s : Scan) : Option Scan := do
  if !s.keyAllowed then return s
  let s ← s.forgetKey?
  return { s with
    keyStart := some {
      required := !s.inFlow && s.indent = s.cursor.column
      tokens := s.tokens.length
      line := s.cursor.line
      column := s.cursor.column
      index := s.cursor.index } }

/-! ## Indentation -/

/-- Begins a block collection at a column behind the first `n` tokens, if it is indented further
than what surrounds it. -/
def indentTo (s : Scan) (column n : Nat) (t : Token) : Scan :=
  if !s.inFlow && s.indent < column then
    { s.insertAt n t with indent := column, outer := s.indent :: s.outer }
  else s

/-- Ends the block collections that are indented further than a column. -/
def unindent (tokens : List Token) (indent column : Int) : List Int → List Token × Int × List Int
  | [] => (tokens, indent, [])
  | o :: outer =>
    if column < indent then unindent (.blockEnd :: tokens) o column outer
    else (tokens, indent, o :: outer)

def unindentTo (s : Scan) (column : Int) : Scan :=
  if s.inFlow then s
  else
    let (tokens, indent, outer) := unindent s.tokens s.indent column s.outer
    { s with tokens, indent, outer }

/-! ## Tokens -/

/-- A document begins or ends. -/
def documentMark? (s : Scan) (t : Token) : Option Scan := do
  let s ← (s.unindentTo (-1)).forgetKey?
  return ({ s with keyAllowed := false }.skip 3).push t

def openFlow? (s : Scan) (t : Token) : Option Scan := do
  let s ← s.markKey?
  return ({ s with keyAllowed := true, keyStart := none, flows := s.keyStart :: s.flows }.skip
    1).push t

def closeFlow? (s : Scan) (t : Token) : Option Scan := do
  let s ← s.forgetKey?
  let s := match s.flows with
    | [] => s
    | k :: flows => { s with keyStart := k, flows }
  return ({ s with keyAllowed := false }.skip 1).push t

def flowEntry? (s : Scan) : Option Scan := do
  let s ← s.forgetKey?
  return ({ s with keyAllowed := true }.skip 1).push .flowEntry

def blockEntry? (s : Scan) : Option Scan := do
  if !s.inFlow && !s.keyAllowed then none
  let s ← (s.indentTo s.cursor.column s.tokens.length .blockSequence).forgetKey?
  return ({ s with keyAllowed := true }.skip 1).push .blockEntry

/-- A question mark announces a key. -/
def key? (s : Scan) : Option Scan := do
  if !s.inFlow && !s.keyAllowed then none
  let s ← (s.indentTo s.cursor.column s.tokens.length .blockMapping).forgetKey?
  return ({ s with keyAllowed := !s.inFlow }.skip 1).push .key

/-- A colon separates a key from its value. -/
def value? (s : Scan) : Option Scan := do
  match s.keyStart with
  | some k =>
    let s := (s.insertAt k.tokens .key).indentTo k.column k.tokens .blockMapping
    return ({ s with keyStart := none, keyAllowed := false }.skip 1).push .value
  | none =>
    if !s.inFlow && !s.keyAllowed then none
    let s := s.indentTo s.cursor.column s.tokens.length .blockMapping
    return ({ s with keyAllowed := !s.inFlow }.skip 1).push .value

/-- A scalar that has been read. -/
def pushScalar (s : Scan) (plain : Bool) (r : Scalar.Read) : Scan :=
  ({ s with cursor := r.cursor, keyAllowed := r.afterBreak }).push
    (.scalar plain (String.ofList r.text))

def plain? (s : Scan) : Option Scan := do
  let s ← s.markKey?
  return s.pushScalar true (← Scalar.plainFrom? s.inFlow (s.indent + 1) [] [] s.cursor)

def quoted? (s : Scan) (double : Bool) : Option Scan := do
  let s ← s.markKey?
  return s.pushScalar false (← Scalar.quotedFrom? double [] (s.cursor.skip 1))

def block? (s : Scan) (literal : Bool) : Option Scan := do
  let s ← s.forgetKey?
  let r ← Scalar.block? literal s.indent (s.cursor.skip 1)
  return s.pushScalar false { r with afterBreak := true }

/-- The characters with which no plain scalar starts. -/
def isIndicator (c : Char) : Bool :=
  c ∈ ['-', '?', ':', ',', '[', ']', '\x7b', '\x7d', '#', '&', '*', '!', '|', '>', '\'', '"', '%',
    '@', '\x60']

/-- Reads one token. -/
def next? (s : Scan) : Option Scan :=
  match s.cursor.rest with
  | [] => none
  | c :: rest =>
    let alone := startsWithGap rest
    if s.cursor.column = 0 && c = '%' then none
    else if s.cursor.atMark '-' then s.documentMark? .documentStart
    else if s.cursor.atMark '.' then s.documentMark? .documentEnd
    else if c = '[' then s.openFlow? .flowSequence
    else if c = '\x7b' then s.openFlow? .flowMapping
    else if c = ']' then s.closeFlow? .flowSequenceEnd
    else if c = '\x7d' then s.closeFlow? .flowMappingEnd
    else if c = ',' then s.flowEntry?
    else if c = '-' && alone then s.blockEntry?
    else if c = '?' && (s.inFlow || alone) then s.key?
    else if c = ':' && (s.inFlow || alone) then s.value?
    else if c = '|' && !s.inFlow then s.block? true
    else if c = '>' && !s.inFlow then s.block? false
    else if c = '\'' then s.quoted? false
    else if c = '"' then s.quoted? true
    else if (!isIndicator c && !isGap c) || (c = '-' && !rest.head?.any isSpace)
        || (!s.inFlow && (c = '?' || c = ':') && !alone) then s.plain?
    else none

/-- Reads the tokens that are left. -/
def run? (s : Scan) : Option (List Token) := do
  let here ← s.toToken.dropStale?
  let here := here.unindentTo here.cursor.column
  if here.cursor.rest.isEmpty then
    let done ← (here.unindentTo (-1)).forgetKey?
    return done.tokens.reverse
  let next ← here.next?
  if next.cursor.rest.length < s.cursor.rest.length then run? next else none
termination_by s.cursor.rest.length

end Scan

/-- The tokens of a text. -/
def tokens? (text : List Char) : Option (List Token) :=
  if text.all isAllowed then Scan.run? { cursor := { rest := unifyBreaks text } } else none

end CubeQuery.Yaml
