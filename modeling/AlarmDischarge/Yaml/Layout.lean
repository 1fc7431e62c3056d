import AlarmDischarge.Yaml.Token

/-!
# `AlarmDischarge.Yaml.Layout`: tokens from text

Two things about a text show only later or not at all as characters. The collections of block style
are opened and closed by indentation. And a key is known as one only when the colon behind it is
met: until then its place is kept, and the token that marks it is put there afterwards.

Main definitions:

* `Candidate`: a place that may turn out to be the start of a key;
* `Layout`: the tokens so far, the block collections that are open, and the candidates;
* `Layout.add?`: one token more;
* `Token.scan?`: the tokens of a text.
-/

set_option autoImplicit false

namespace AlarmDischarge.Yaml

/-! ### Candidates for keys -/

/-- A place in the text that may turn out to be the start of a key. -/
structure Candidate where
  /-- how many tokens stand before it -/
  place : Nat
  line : Nat
  column : Nat
  width : Nat
  /-- whether nothing but a key may stand there -/
  required : Bool
deriving DecidableEq

/-- Whether it is too late at some place for the colon of a key: a key stays on its line and takes
at most 1024 bytes. -/
def Candidate.isStale (k : Candidate) (c : Cursor) : Bool :=
  k.line != c.line || k.width + 1024 < c.width

/-- A candidate as it counts at some place. One that is stale is given up, which is an error if a
key is required. -/
def Candidate.refresh? (c : Cursor) : Option Candidate → Option (Option Candidate)
  | none => some none
  | some k =>
    if k.isStale c then
      if k.required then none else some none
    else some (some k)

/-! ### Layouts -/

/-- What is known at some place of a text. -/
structure Layout where
  /-- the tokens so far, latest first -/
  tokens : List Token := []
  /-- the columns of the block collections that are open, innermost first -/
  indents : List Nat := []
  /-- whether a key may start here -/
  keyAllowed : Bool := true
  /-- the candidate inside the innermost brackets -/
  key : Option Candidate := none
  /-- the candidates before each open bracket, innermost first -/
  outer : List (Option Candidate) := []

namespace Layout

/-- Whether a bracket is open. -/
def inFlow (l : Layout) : Bool := !l.outer.isEmpty

/-- The least column that is further in than the innermost block collection. -/
def limit (l : Layout) : Nat := l.indents.head?.elim 0 (· + 1)

/-- Appends a token. -/
def push (l : Layout) (t : Token) : Layout := { l with tokens := t :: l.tokens }

/-- Puts a token behind the first tokens. -/
def insert (l : Layout) (place : Nat) (t : Token) : Layout :=
  let later := l.tokens.length - place
  { l with tokens := l.tokens.take later ++ t :: l.tokens.drop later }

/-- Closes the block collections whose columns satisfy a condition, as far as it holds. Brackets
keep them open. -/
def closeBlocks (l : Layout) (p : Nat → Bool) : Layout :=
  if l.inFlow then l
  else
    { l with
      indents := l.indents.dropWhile p
      tokens := (l.indents.takeWhile p).map (fun _ => Token.blockEnd) ++ l.tokens }

/-- Opens a block collection at a column, unless one is open there or further in. Its token is put
behind the first tokens. -/
def openBlock (l : Layout) (column place : Nat) (t : Token) : Layout :=
  if !l.inFlow && l.limit ≤ column then { l with indents := column :: l.indents }.insert place t
  else l

/-- Gives up the candidate, which is an error if a key is required. -/
def dropKey? (l : Layout) : Option Layout :=
  if l.key.any Candidate.required then none else some { l with key := none }

/-- Takes a place as a candidate if a key may start there. At the column of the innermost block
collection nothing else may. -/
def saveKey? (l : Layout) (c : Cursor) : Option Layout :=
  if l.keyAllowed then
    l.dropKey?.map fun l =>
      { l with
        key := some
          { place := l.tokens.length
            line := c.line
            column := c.column
            width := c.width
            required := !l.inFlow && l.indents.head? == some c.column } }
  else some l

/-- Opens a block collection for the mark of an item or a key at some place. Outside of brackets
such a mark stands where a key may. -/
def markBlock? (l : Layout) (c : Cursor) (t : Token) : Option Layout :=
  if l.inFlow then some l
  else if l.keyAllowed then some (l.openBlock c.column l.tokens.length t)
  else none

/-- One token more, given the place where it starts and the place behind it. -/
def add? (l : Layout) (t : Token) (start stop : Cursor) : Option Layout :=
  match t with
  | .version .. | .handle .. | .documentStart | .documentEnd =>
    (l.closeBlocks fun _ => true).dropKey?.map fun l => { l with keyAllowed := false }.push t
  | .openSeq | .openMap =>
    (l.saveKey? start).map fun l =>
      { l with keyAllowed := true, key := none, outer := l.key :: l.outer }.push t
  | .closeSeq | .closeMap =>
    l.dropKey?.map fun l =>
      { l with
        keyAllowed := false
        key := l.outer.head?.getD none
        outer := l.outer.tail }.push t
  | .comma => l.dropKey?.map fun l => { l with keyAllowed := true }.push t
  | .dash =>
    ((l.markBlock? start .seqStart).bind dropKey?).map fun l => { l with keyAllowed := true }.push t
  | .key =>
    ((l.markBlock? start .mapStart).bind dropKey?).map fun l =>
      { l with keyAllowed := !l.inFlow }.push t
  | .value =>
    match l.key with
    | some k =>
      let l := (l.insert k.place .key).openBlock k.column k.place .mapStart
      some ({ l with keyAllowed := false, key := none }.push t)
    | none =>
      (l.markBlock? start .mapStart).map fun l => { l with keyAllowed := !l.inFlow }.push t
  | .scalar .literal _ | .scalar .folded _ =>
    l.dropKey?.map fun l => { l with keyAllowed := true }.push t
  | .scalar .plain _ =>
    -- A plain scalar takes the space behind it, and with it perhaps the start of the next line.
    (l.saveKey? start).map fun l => { l with keyAllowed := stop.fresh }.push t
  | _ => (l.saveKey? start).map fun l => { l with keyAllowed := false }.push t

/-- Whether a key may start where the next token does, and that place. -/
def skipSpace (l : Layout) (c : Cursor) : Bool × Cursor := c.skipSpace l.inFlow l.keyAllowed

theorem skipSpace_length (l : Layout) (c : Cursor) :
    (l.skipSpace c).2.rest.length ≤ c.rest.length :=
  Cursor.skipSpace_length _ _ c

/-- What is known where the next token starts: stale candidates are given up, and the block
collections further in are closed. -/
def arrive? (l : Layout) (c : Cursor) : Option Layout := do
  let (keyAllowed, start) := l.skipSpace c
  let key ← Candidate.refresh? start l.key
  let outer ← l.outer.mapM (Candidate.refresh? start)
  return { l with keyAllowed, key, outer }.closeBlocks (start.column < ·)

/-- The tokens of a text that ends here. -/
def finish? (l : Layout) : Option (List Token) :=
  (l.closeBlocks fun _ => true).dropKey?.map fun l => l.tokens.reverse

end Layout

/-! ### Scanning -/

/-- The tokens of a text, given what is known at some place of it. -/
def Token.scanFrom? (l : Layout) (c : Cursor) : Option (List Token) :=
  match l.arrive? c with
  | none => none
  | some next =>
    if (l.skipSpace c).2.rest = [] then next.finish?
    else
      match h : Token.read? next.inFlow next.limit (l.skipSpace c).2 with
      | none => none
      | some (t, stop) =>
        have := Token.read?_length h
        have := l.skipSpace_length c
        match next.add? t (l.skipSpace c).2 stop with
        | none => none
        | some l' => Token.scanFrom? l' stop
termination_by c.rest.length

/-- A text as a list of tokens. Every character of it has to be printable. -/
def Token.scan? (cs : List Char) : Option (List Token) :=
  if cs.all isPrintable then Token.scanFrom? {} { rest := cs } else none

end AlarmDischarge.Yaml
