import AlarmDischarge.Yaml.Layout

/-!
# `AlarmDischarge.Yaml.Reader`: YAML documents from text

The reader takes one token after the other and keeps the collections that are still open on a stack.
Between tokens a node is due, or what comes after a node. A node that is due may be left out where
the next token shows that it is.

Main definitions:

* `Frame`: an open collection, and the place in it for the next node;
* `Builder`, `Builder.step?`: a document of which some tokens have been read, and one token more;
* `Yaml.parse?`: the document that a text holds.
-/

set_option autoImplicit false

namespace AlarmDischarge.Yaml

/-! ### Open collections -/

/-- A collection that is still open, with its members so far, latest first, and the place in it for
the next node. -/
inductive Frame where
  /-- an item of a block sequence -/
  | item (marks : Marks) (done : List Yaml)
  /-- an item of a block sequence that stands no further in than the key it belongs to -/
  | flatItem (marks : Marks) (done : List Yaml)
  /-- a key of a block mapping -/
  | key (marks : Marks) (done : List (Yaml × Yaml))
  /-- a value of a block mapping -/
  | value (marks : Marks) (done : List (Yaml × Yaml)) (key : Yaml)
  /-- an item of a sequence in brackets; with the mark of a key it is a mapping with one entry -/
  | flowItem (marks : Marks) (done : List Yaml)
  /-- the key of an item that is a mapping with one entry -/
  | pairKey (marks : Marks) (done : List Yaml)
  /-- the value of such an item -/
  | pairValue (marks : Marks) (done : List Yaml) (key : Yaml)
  /-- a key of a mapping in braces, behind the mark of a key -/
  | flowKey (marks : Marks) (done : List (Yaml × Yaml))
  /-- an entry of a mapping in braces; without the mark of a key it has no value -/
  | bareKey (marks : Marks) (done : List (Yaml × Yaml))
  /-- a value of a mapping in braces -/
  | flowValue (marks : Marks) (done : List (Yaml × Yaml)) (key : Yaml)

namespace Frame

/-- Puts a node in its place. What is due next is the value of a key, or else another member. -/
def put (node : Yaml) : Frame → Frame
  | item marks done => item marks (node :: done)
  | flatItem marks done => flatItem marks (node :: done)
  | key marks done => value marks done node
  | value marks done k => key marks ((k, node) :: done)
  | flowItem marks done => flowItem marks (node :: done)
  | pairKey marks done => pairValue marks done node
  | pairValue marks done k => flowItem marks (map {} [(k, node)] :: done)
  | flowKey marks done => flowValue marks done node
  | bareKey marks done => bareKey marks ((node, nothing) :: done)
  | flowValue marks done k => bareKey marks ((k, node) :: done)

/-- Leaves out the value of a key. -/
def leaveValue : Frame → Frame
  | value marks done k => (value marks done k).put nothing
  | pairValue marks done k => (pairValue marks done k).put nothing
  | flowValue marks done k => (flowValue marks done k).put nothing
  | f => f

/-- Whether collections of block style may stand in this place. -/
def holdsBlocks : Frame → Bool
  | item .. | flatItem .. | key .. | value .. => true
  | _ => false

/-- Whether a sequence may stand in this place without standing further in. -/
def holdsFlatItems : Frame → Bool
  | key .. | value .. => true
  | _ => false

/-- The tokens that show that the node in this place is left out. -/
def leftOutBefore : Frame → List Token
  | item .. => [.dash, .blockEnd]
  | flatItem .. => [.dash, .key, .value, .blockEnd]
  | key .. | value .. => [.key, .value, .blockEnd]
  | flowItem .. | pairKey .. | bareKey .. => []
  | pairValue .. => [.comma, .closeSeq]
  | flowKey .. => [.value, .comma, .closeMap]
  | flowValue .. => [.comma, .closeMap]

/-- Whether a token, after a node, makes way for the next one. -/
def continuesAt : Frame → Token → Bool
  | item .., t | flatItem .., t => t == .dash
  | key .., t => t == .key
  | value .., t | pairValue .., t | flowValue .., t => t == .value
  | flowItem .., t | bareKey .., t => t == .comma
  | _, _ => false

/-- The collection that is complete with a token after its last member. -/
def closedBy? : Frame → Token → Option Yaml
  | item marks done, .blockEnd => some (seq marks done.reverse)
  | key marks done, .blockEnd => some (map marks done.reverse)
  | flowItem marks done, .closeSeq => some (seq marks done.reverse)
  | bareKey marks done, .closeMap => some (map marks done.reverse)
  | _, _ => none

end Frame

/-! ### Documents being read -/

/-- What is due. -/
inductive Phase where
  /-- the first token -/
  | start
  /-- another directive, or the document that the directives are about -/
  | directives
  /-- a node, of which some marks may have been read -/
  | node (marks : Marks)
  /-- what comes after a node -/
  | after
  /-- nothing: the document is complete -/
  | finished (root : Yaml)

/-- A document of which some tokens have been read. -/
structure Builder where
  phase : Phase := .start
  /-- the open collections, innermost first -/
  stack : List Frame := []
  /-- whether the start of the document is marked -/
  marked : Bool := false
  /-- whether a directive names the version -/
  versioned : Bool := false
  /-- what directives say about tag handles -/
  handles : List (String × Tag) := []
  /-- the names of anchors, each with the number of the latest anchor of that name -/
  names : List (String × Nat) := []

namespace Builder

/-- Puts a node that is complete in its place. -/
def complete (b : Builder) (node : Yaml) : Builder :=
  match b.stack with
  | [] => { b with phase := .finished node }
  | frame :: stack => { b with phase := .after, stack := frame.put node :: stack }

/-- Takes the next token after a node in an open collection. -/
def advance? (b : Builder) (frame : Frame) (stack : List Frame) (t : Token) : Option Builder :=
  if frame.continuesAt t then some { b with phase := .node {}, stack := frame :: stack }
  else if frame.leaveValue.continuesAt t then
    some { b with phase := .node {}, stack := frame.leaveValue :: stack }
  else (frame.leaveValue.closedBy? t).map fun node => { b with stack }.complete node

/-- Takes the next token after a node. A sequence that stands no further in than its key ends where
no item follows, and the token belongs to what holds it. -/
def after? (b : Builder) (t : Token) : Option Builder :=
  match b.phase, b.stack with
  | .finished _, _ => if t = .documentEnd then some b else none
  | _, .flatItem marks done :: frame :: stack =>
    if t = .dash then some { b with phase := .node {} }
    else b.advance? (frame.put (seq marks done.reverse)) stack t
  | _, frame :: stack => b.advance? frame stack t
  | _, [] => none

/-- Gives an anchor its number, which is how many names have been met. -/
def nameAnchor (b : Builder) (name : String) : Nat × Builder :=
  (b.names.length,
    { b with names := (name, b.names.length) :: b.names.filter (fun p => p.1 != name) })

/-- Takes the next token where a node is due that has no marks and does not start with it. A
sequence in brackets or a mapping in braces may end here, or its next member start with the mark of
a key. -/
def leaveOut? (b : Builder) (t : Token) : Option Builder :=
  match b.stack, t with
  | .flowItem marks done :: stack, .closeSeq =>
    some ({ b with stack }.complete (seq marks done.reverse))
  | .flowItem marks done :: stack, .key =>
    some { b with phase := .node {}, stack := .pairKey marks done :: stack }
  | .bareKey marks done :: stack, .closeMap =>
    some ({ b with stack }.complete (map marks done.reverse))
  | .bareKey marks done :: stack, .key =>
    some { b with phase := .node {}, stack := .flowKey marks done :: stack }
  | .pairKey _ _ :: _, t =>
    -- The key of a pair that is left out takes the token that shows it.
    if t ∈ [.value, .comma, .closeSeq] then some (b.complete nothing) else none
  | frame :: _, t => if t ∈ frame.leftOutBefore then (b.complete nothing).after? t else none
  | [], t => if b.marked ∧ t = .documentEnd then (b.complete nothing).after? t else none

/-- Takes the next token where a node is due that has no content yet but perhaps marks. -/
def skipNode? (b : Builder) (marks : Marks) (t : Token) : Option Builder :=
  if marks = {} then b.leaveOut? t else (b.complete (scalar marks .plain "")).after? t

/-- Takes the next token where a node is due. -/
def node? (b : Builder) (marks : Marks) (t : Token) : Option Builder :=
  match t with
  | .reference name =>
    if marks = {} then (b.names.lookup name).map fun n => b.complete (reference n)
    else b.skipNode? marks t
  | .anchor name =>
    if marks.anchor = none then
      let (n, b) := b.nameAnchor name
      some { b with phase := .node { marks with anchor := some n } }
    else b.skipNode? marks t
  | .tag word =>
    -- An exclamation mark alone is a tag like any other, so a choice that carries it is refused.
    if marks.tag = none then
      (word.resolve? b.handles).map fun tag =>
        { b with phase := .node { marks with tag := some tag } }
    else b.skipNode? marks t
  | .scalar style text => some (b.complete (scalar marks style text))
  | .openSeq => some { b with phase := .node {}, stack := .flowItem marks [] :: b.stack }
  | .openMap => some { b with phase := .node {}, stack := .bareKey marks [] :: b.stack }
  | .seqStart =>
    if b.stack.head?.all Frame.holdsBlocks then
      some { b with phase := .after, stack := .item marks [] :: b.stack }
    else b.skipNode? marks t
  | .mapStart =>
    if b.stack.head?.all Frame.holdsBlocks then
      some { b with phase := .after, stack := .key marks [] :: b.stack }
    else b.skipNode? marks t
  | .dash =>
    if b.stack.head?.any Frame.holdsFlatItems then
      some { b with phase := .node {}, stack := .flatItem marks [] :: b.stack }
    else b.skipNode? marks t
  | t => b.skipNode? marks t

/-- Takes a directive. The version is named at most once and has to be one that can be read, and a
handle is explained at most once. -/
def directive? (b : Builder) (t : Token) : Option Builder :=
  match t with
  | .version major minor =>
    if !b.versioned ∧ major = 1 ∧ (minor = 1 ∨ minor = 2) then
      some { b with phase := .directives, versioned := true }
    else none
  | .handle name start =>
    if (b.handles.lookup name).isSome then none
    else some { b with phase := .directives, handles := (name, start) :: b.handles }
  | .documentStart => some { b with phase := .node {}, marked := true }
  | _ => none

/-- Takes the next token. -/
def step? (b : Builder) (t : Token) : Option Builder :=
  match b.phase with
  | .start =>
    match t with
    | .version .. | .handle .. | .documentStart => b.directive? t
    | t => b.node? {} t
  | .directives => b.directive? t
  | .node marks => b.node? marks t
  | .after | .finished _ => b.after? t

/-- The document, if the text ends here. -/
def finish? (b : Builder) : Option Yaml :=
  match b.phase, b.stack with
  | .start, _ => some nothing
  | .node marks, [] =>
    if marks ≠ {} ∨ b.marked then some (scalar marks .plain "") else none
  | .finished root, _ => some root
  | _, _ => none

end Builder

/-- The document that a text holds. A text holds one document at most. -/
def parse? (s : String) : Option Yaml := do
  let tokens ← Token.scan? s.toList
  let b ← tokens.foldlM Builder.step? {}
  b.finish?

end AlarmDischarge.Yaml
