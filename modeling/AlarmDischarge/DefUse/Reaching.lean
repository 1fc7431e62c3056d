import AlarmDischarge.DefUse.Definition
import AlarmDischarge.Program
import AlarmDischarge.Worklist

/-!
# `AlarmDischarge.DefUse.Reaching`: which definitions are alive where

Definitions travel along control flow. A node adds the definitions of its own command. It stops
earlier definitions of a variable only if its command overwrites that variable as a whole: storing
to one element of an array, or refining a variable by an assumption, lets them pass.

Main definitions:

* `Reaching.generated`, `Reaching.killed`: what a node adds and what it stops;
* `Reaching.Exits`: the definitions alive after each node visited so far;
* `Reaching.entry`: the definitions alive before a node (`reaching_in`);
* `Reaching.worklist`, `Reaching.exits`: the analysis and its result (`reaching_out`).
-/

set_option autoImplicit false

namespace AlarmDischarge.Reaching

open Std

/-- The definitions that the command at a node makes. -/
def generated (v : Program.View) (n : Node) : Definitions :=
  match v.commandAt n with
  | some c => .ofList (c.defs.toList.map (Definition.mk · n))
  | none => ∅

/-- Whether the command at a node overwrites a variable. -/
def killed (v : Program.View) (n : Node) (x : String) : Bool :=
  match v.commandAt n with
  | some c => c.overwrites && c.defs.contains x
  | none => false

/-- The definitions alive after the nodes visited so far. -/
abbrev Exits := ExtTreeMap Node Definitions

/-- The definitions alive before a node. -/
def entry (v : Program.View) (exits : Exits) (n : Node) : Definitions :=
  FiniteSet.union (v.flow.preds n).toList fun p => exits.getD p ∅

/-- The definitions alive after a node, given those alive before it. -/
def transfer (v : Program.View) (n : Node) (before : Definitions) : Definitions :=
  before.filter (fun d => !killed v n d.name) ∪ generated v n

/-- A visit brings what is alive after a node up to date. -/
def visit (v : Program.View) (n : Node) (exits : Exits) : Option Exits :=
  let after := transfer v n (entry v exits n)
  -- A first visit stores its set even if there is nothing in it.
  if exits[n]? = some after then none else some (exits.insert n after)

/-- The analysis. -/
def worklist (v : Program.View) : Worklist Exits := ⟨v.flow, visit v⟩

/-- Every definition that a program makes. -/
def definitions (v : Program.View) : Definitions :=
  FiniteSet.union v.flow.nodes.toList (generated v)

/-- No run makes more visits: each node is visited once to begin with, and an edge calls for another
visit of its target only when its source has found its first set or a further definition. -/
def visitBound (v : Program.View) : Nat :=
  v.flow.nodes.size + v.flow.edges.size * ((definitions v).size + 1)

/-- The definitions alive after each node. -/
def exits (v : Program.View) : Exits :=
  ((worklist v).run (visitBound v) ((worklist v).start ∅)).knowledge

end AlarmDischarge.Reaching
