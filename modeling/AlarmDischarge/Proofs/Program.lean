import AlarmDischarge.Program
import AlarmDischarge.Proofs.FiniteSet
import AlarmDischarge.Proofs.NodeGraph
import Mathlib.Data.List.Infix

/-!
# `AlarmDischarge.Proofs.Program`: programs by what was added to them

A program is built by giving commands to nodes and by adding edges and paths (`add_command`,
`add_cfg_edge`, `add_cfg_path`), in any order. A command replaces what the node had; an edge gives its
ends the command `skip`, unless they have one. This module says what any sequence of such additions
makes of a program:

* `Addition`, `ofAdditions`: additions, and the program that a sequence of them builds;
* `commandAt_ofAdditions`: a node has the last command that it was given, or `skip` if it was given
  none and is the end of an edge;
* `mem_keys_ofAdditions`: the nodes are those that were given a command or are the end of an edge;
* `mem_edges_ofAdditions`: control flow has the edges that were added, a path being its consecutive
  pairs.
-/

set_option autoImplicit false

namespace AlarmDischarge.Program

open Std

/-- One addition to a program: a command for a node, an edge, or a path. -/
inductive Addition where
  | command (n : Node) (c : Command)
  | edge (source target : Node)
  | path (nodes : List Node)
deriving DecidableEq

namespace Addition

/-- The edges that an addition brings: a path brings one from each of its nodes to the one that stands
next to it. -/
def HasEdge : Addition → Edge → Prop
  | command _ _, _ => False
  | edge source target, e => e = ⟨source, target⟩
  | path nodes, e => [e.source, e.target] <:+: nodes

/-- The command that an addition gives to a node. -/
def commandFor? (n : Node) : Addition → Option Command
  | command m c => if m = n then some c else none
  | edge _ _ => none
  | path _ => none

/-- The edges of an addition, listed as they are added. -/
def links : Addition → List (Node × Node)
  | command _ _ => []
  | edge source target => [(source, target)]
  | path nodes => nodes.zip nodes.tail

end Addition

/-- Makes an addition to a program. -/
def add (p : Program) : Addition → Program
  | .command n c => p.addCommand n c
  | .edge source target => p.addEdge source target
  | .path nodes => p.addPath nodes

/-- The program that a sequence of additions builds. -/
def ofAdditions (as : List Addition) : Program := as.foldl add empty

/-- The commands that a node is given, in their order. -/
def commandsFor (n : Node) (as : List Addition) : List Command :=
  as.filterMap (Addition.commandFor? n)

/-- An edge that some addition brings. -/
def IsAdded (as : List Addition) (e : Edge) : Prop := ∃ a ∈ as, a.HasEdge e

/-- A node that an added edge leaves or enters. -/
def IsEnd (as : List Addition) (n : Node) : Prop :=
  ∃ e, IsAdded as e ∧ (n = e.source ∨ n = e.target)

/-! ### Edges of additions -/

/-- The pairs of a list with its tail are its consecutive pairs. -/
theorem mem_zip_tail_iff {nodes : List Node} {m n : Node} :
    (m, n) ∈ nodes.zip nodes.tail ↔ [m, n] <:+: nodes := by
  induction nodes with
  | nil => simp
  | cons a nodes ih =>
    cases nodes with
    | nil => simp [List.infix_cons_iff]
    | cons b nodes =>
      -- A pair stands in front, or it is one of the pairs of the tail.
      rw [List.infix_cons_iff, ← ih]
      simp [List.cons_prefix_cons]

theorem mem_links_iff {a : Addition} {e : Edge} : (e.source, e.target) ∈ a.links ↔ a.HasEdge e := by
  cases a with
  | command n c => simp [Addition.links, Addition.HasEdge]
  | edge source target =>
    cases e
    simp [Addition.links, Addition.HasEdge]
  | path nodes => exact mem_zip_tail_iff

theorem mem_flatMap_links_iff {as : List Addition} {e : Edge} :
    (e.source, e.target) ∈ as.flatMap Addition.links ↔ IsAdded as e := by
  simp only [List.mem_flatMap, mem_links_iff, IsAdded]

/-! ### Commands -/

/-- The command that edges give to a node: `skip`, if it is an end of one of them. -/
def defaultAt (links : List (Node × Node)) (n : Node) : Option Command :=
  if ∃ l ∈ links, n = l.1 ∨ n = l.2 then some .skip else none

theorem defaultAt_append (links links' : List (Node × Node)) (n : Node) :
    defaultAt (links ++ links') n = (defaultAt links n).or (defaultAt links' n) := by
  unfold defaultAt
  by_cases h : ∃ l ∈ links, n = l.1 ∨ n = l.2
  · obtain ⟨l, hl, hn⟩ := h
    rw [if_pos ⟨l, List.mem_append_left _ hl, hn⟩, if_pos ⟨l, hl, hn⟩, Option.some_or]
  · rw [if_neg h, Option.none_or]
    refine if_congr ?_ rfl rfl
    simp only [List.mem_append, or_and_right, exists_or, h, false_or]

theorem defaultAt_flatMap_links {as : List Addition} {n : Node} {c : Command} :
    defaultAt (as.flatMap Addition.links) n = some c ↔ c = .skip ∧ IsEnd as n := by
  have hends : (∃ l ∈ as.flatMap Addition.links, n = l.1 ∨ n = l.2) ↔ IsEnd as n := by
    constructor
    · rintro ⟨⟨m, k⟩, hl, hn⟩
      exact ⟨⟨m, k⟩, mem_flatMap_links_iff.mp hl, hn⟩
    · rintro ⟨e, he, hn⟩
      exact ⟨(e.source, e.target), mem_flatMap_links_iff.mpr he, hn⟩
  unfold defaultAt
  rw [Option.ite_none_right_eq_some, hends, Option.some.injEq, eq_comm (a := c), and_comm]

/-- An edge gives its ends `skip` and replaces nothing. -/
theorem commandAt_addEdge (p : Program) (source target n : Node) :
    (p.addEdge source target).commandAt n =
      (p.commandAt n).or (defaultAt [(source, target)] n) := by
  show ((p.commands.insertIfNew source .skip).insertIfNew target .skip)[n]? =
    p.commands[n]?.or (defaultAt [(source, target)] n)
  rw [FiniteSet.getElem?_insertIfNew_eq_or, FiniteSet.getElem?_insertIfNew_eq_or, Option.or_assoc]
  refine congrArg _ ?_
  -- The edge may be a loop: then the second insertion finds the node in place.
  by_cases hs : n = source
  · simp [defaultAt, hs]
  · simp [defaultAt, hs]

theorem commandAt_foldl_addEdge (p : Program) (links : List (Node × Node)) (n : Node) :
    (links.foldl (fun p l => p.addEdge l.1 l.2) p).commandAt n =
      (p.commandAt n).or (defaultAt links n) := by
  induction links generalizing p with
  | nil => simp [defaultAt]
  | cons l links ih =>
    rw [List.foldl_cons, ih, commandAt_addEdge, Option.or_assoc, ← defaultAt_append]
    rfl

/-- What one addition does to the command at a node: a command for the node counts first, then what
the node had, and last the `skip` of an edge. -/
theorem commandAt_add (p : Program) (a : Addition) (n : Node) :
    (p.add a).commandAt n =
      ((a.commandFor? n).or (p.commandAt n)).or (defaultAt a.links n) := by
  cases a with
  | command m c =>
    show (p.commands.insert m c)[n]? = _
    rw [FiniteSet.getElem?_insert_eq_ite]
    -- The command hides what the node had, and leaves every other node alone.
    by_cases hm : n = m
    · simp [Addition.commandFor?, hm]
    · rw [if_neg hm, Addition.commandFor?, if_neg (Ne.symm hm), Option.none_or]
      exact Option.or_none.symm
  | edge source target => exact commandAt_addEdge p source target n
  | path nodes => exact commandAt_foldl_addEdge p (nodes.zip nodes.tail) n

theorem getLast?_commandsFor_concat (n : Node) (as : List Addition) (a : Addition) :
    (commandsFor n (as ++ [a])).getLast? = (a.commandFor? n).or (commandsFor n as).getLast? := by
  unfold commandsFor
  rw [List.filterMap_append, List.getLast?_append]
  cases h : a.commandFor? n with
  | none => simp [h]
  | some c => simp [h]

/-- What a sequence of additions makes of the command at a node: the last command that the node was
given counts, wherever edges stand in the sequence. The induction takes off the last addition. -/
theorem commandAt_ofAdditions (as : List Addition) (n : Node) :
    (ofAdditions as).commandAt n =
      (commandsFor n as).getLast?.or (defaultAt (as.flatMap Addition.links) n) := by
  induction as using List.reverseRecOn with
  | nil => rfl
  | append_singleton as a ih =>
    have hrun : ofAdditions (as ++ [a]) = (ofAdditions as).add a := by simp [ofAdditions]
    rw [hrun, commandAt_add, ih, getLast?_commandsFor_concat, List.flatMap_append,
      List.flatMap_singleton, defaultAt_append, Option.or_assoc, Option.or_assoc, Option.or_assoc]

/-! ### Control flow -/

theorem flow_foldl_addEdge (p : Program) (links : List (Node × Node)) :
    (links.foldl (fun p l => p.addEdge l.1 l.2) p).flow =
      links.foldl (fun g l => g.addEdge l.1 l.2) p.flow := by
  induction links generalizing p with
  | nil => rfl
  | cons l links ih => exact ih (p.addEdge l.1 l.2)

theorem mem_edges_add {p : Program} {a : Addition} {e : Edge} :
    e ∈ (p.add a).flow.edges ↔ a.HasEdge e ∨ e ∈ p.flow.edges := by
  have hlinks : (p.add a).flow.edges =
      (a.links.foldl (fun g l => g.addEdge l.1 l.2) p.flow).edges := by
    cases a with
    | command n c => rfl
    | edge source target => rfl
    | path nodes =>
      show ((nodes.zip nodes.tail).foldl _ p).flow.edges = _
      rw [flow_foldl_addEdge]
      rfl
  rw [hlinks, NodeGraph.mem_edges_foldl_addEdge, mem_links_iff]

/-- Control flow has the edges that were added. -/
theorem mem_edges_ofAdditions {as : List Addition} {e : Edge} :
    e ∈ (ofAdditions as).flow.edges ↔ IsAdded as e := by
  refine (FiniteSet.holds_foldl_iff (P := fun p => e ∈ p.flow.edges) (fun p a => ?_) empty as).trans
    (or_iff_left ExtTreeSet.not_mem_empty)
  exact mem_edges_add

/-! ### What a program records -/

/-- Programs with the same commands and the same edges are equal. The nodes are those that have a
command. -/
theorem ext_commandAt {p q : Program} (hcommands : ∀ n, p.commandAt n = q.commandAt n)
    (hedges : ∀ e, e ∈ p.flow.edges ↔ e ∈ q.flow.edges) : p = q := by
  have hc : p.commands = q.commands := ExtTreeMap.ext_getElem? hcommands
  have hf : p.flow = q.flow := by
    refine NodeGraph.ext_mem (fun n => ?_) hedges
    rw [← p.total, ← q.total, hc]
  cases p
  cases q
  cases hc
  cases hf
  rfl

/-- A node was given a command if and only if some addition gives it one. -/
theorem commandsFor_ne_nil_iff {n : Node} {as : List Addition} :
    commandsFor n as ≠ [] ↔ ∃ c, .command n c ∈ as := by
  constructor
  · intro h
    obtain ⟨c, hc⟩ := List.exists_mem_of_ne_nil _ h
    obtain ⟨a, ha, hac⟩ := List.mem_filterMap.mp hc
    cases a with
    | command m d =>
      simp only [Addition.commandFor?, Option.ite_none_right_eq_some] at hac
      exact ⟨d, hac.1 ▸ ha⟩
    | edge source target => cases hac
    | path nodes => cases hac
  · rintro ⟨c, hc⟩
    exact List.ne_nil_of_mem (List.mem_filterMap.mpr ⟨_, hc, if_pos rfl⟩)

theorem commandAt_ofAdditions_eq_some_iff {as : List Addition} {n : Node} {c : Command} :
    (ofAdditions as).commandAt n = some c ↔
      (commandsFor n as).getLast? = some c ∨ commandsFor n as = [] ∧ c = .skip ∧ IsEnd as n := by
  rw [commandAt_ofAdditions, Option.or_eq_some_iff, defaultAt_flatMap_links,
    List.getLast?_eq_none_iff]

theorem mem_keys_ofAdditions {as : List Addition} {n : Node} :
    n ∈ (ofAdditions as).commands.keys ↔ (∃ c, .command n c ∈ as) ∨ IsEnd as n := by
  have hsome : n ∈ (ofAdditions as).commands.keys ↔ ∃ c, (ofAdditions as).commandAt n = some c := by
    rw [ExtTreeMap.mem_keys, ExtTreeMap.mem_iff_isSome_getElem?, Option.isSome_iff_exists]
    rfl
  simp only [hsome, commandAt_ofAdditions_eq_some_iff]
  rw [← commandsFor_ne_nil_iff]
  constructor
  · rintro ⟨c, hlast | ⟨-, -, hend⟩⟩
    · refine .inl fun hnil => ?_
      rw [hnil] at hlast
      cases hlast
    · exact .inr hend
  · intro h
    -- A node that was given no command must be an end, and has `skip` then.
    by_cases hnil : commandsFor n as = []
    · exact ⟨.skip, .inr ⟨hnil, rfl, h.resolve_left fun hne => hne hnil⟩⟩
    · exact ⟨_, .inl (List.getLast?_eq_some_getLast hnil)⟩

end AlarmDischarge.Program
