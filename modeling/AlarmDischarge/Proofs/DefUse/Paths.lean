import AlarmDischarge.DefUse.Graph
import AlarmDischarge.Proofs.DefUse.Reaching
import AlarmDischarge.Proofs.Fact
import AlarmDischarge.Proofs.NodeGraph
import Mathlib.Data.List.Chain

/-!
# `AlarmDischarge.Proofs.DefUse.Paths`: def-use graphs and control-flow paths

A definition of a variable is read at a node if some path of control flow leads from the one to the
other on which no node in between overwrites the variable. The analysis (`reaching_out`, `build`)
does not look at paths; this module shows that it finds exactly what they say:

* `killed_iff`: a node stops the definitions of the variable that its command writes as a whole;
* `aliveAfter_of_mem_exits`: each definition that the analysis finds alive is so along some path (the
  induction is on the run);
* `mem_entry_of_isChain`: a definition that is alive along some path is found (the induction is on the
  path);
* `defUse_edges_are_paths`: the def-use graph has the nodes of the program and an edge for each pair
  of a definition and a reader of one variable that are linked by such a path.
-/

set_option autoImplicit false

namespace AlarmDischarge

open Std

/-! ### Whole variables -/

theorem LValue.definedVariable?_of_bareVar? {place : LValue} {y : Variable}
    (h : place.bareVar? = some y) : place.definedVariable? = some y.name := by
  rw [eq_var_of_bareVar? h]
  rfl

namespace Command

/-- A command that writes a whole variable defines that variable and no other. -/
theorem defs_of_target? {c : Command} {place : LValue} {y : Variable}
    (htarget : c.target? = some place) (hy : place.bareVar? = some y) : c.defs = {y.name} := by
  have hbind : c.target?.bind LValue.definedVariable? = some y.name := by
    rw [htarget, Option.bind_some, LValue.definedVariable?_of_bareVar? hy]
  cases c with
  | assume condition => cases htarget
  | assign place value => simp only [defs, hbind]
  | alloc place size => simp only [defs, hbind]
  | call result callee args => simp only [defs, hbind]
  | fetch place => simp only [defs, hbind]
  | ret value => cases htarget
  | skip => cases htarget

/-- The definitions that a command stops are those of the whole variable that it writes. -/
theorem overwrites_and_mem_defs_iff {c : Command} {x : String} :
    c.overwrites = true ∧ x ∈ c.defs ↔
      ∃ place y, c.target? = some place ∧ place.bareVar? = some y ∧ y.name = x := by
  constructor
  · rintro ⟨hover, hx⟩
    obtain ⟨y, hy⟩ := Option.isSome_iff_exists.mp hover
    obtain ⟨place, htarget, hbare⟩ := Option.bind_eq_some_iff.mp hy
    rw [defs_of_target? htarget hbare] at hx
    exact ⟨place, y, htarget, hbare, by simpa using hx⟩
  · rintro ⟨place, y, htarget, hbare, rfl⟩
    refine ⟨?_, ?_⟩
    · unfold overwrites
      rw [htarget, Option.bind_some, hbare, Option.isSome_some]
    · rw [defs_of_target? htarget hbare]
      simp

end Command

namespace Program.View

variable {v : View} {d n p u : Node} {x : String}

/-! ### Paths of control flow -/

/-- The command at a node, if there is one to be seen, defines a variable. -/
def DefinesAt (v : View) (n : Node) (x : String) : Prop := ∃ c, v.commandAt n = some c ∧ x ∈ c.defs

/-- The command at a node, if there is one to be seen, reads a variable. -/
def ReadsAt (v : View) (n : Node) (x : String) : Prop := ∃ c, v.commandAt n = some c ∧ x ∈ c.uses

/-- The place that the command at a node writes is a whole variable, with a given name. -/
def OverwritesAt (v : View) (n : Node) (x : String) : Prop :=
  ∃ c place y, v.commandAt n = some c ∧ c.target? = some place ∧ place.bareVar? = some y ∧ y.name = x

/-- A path of at least one edge of control flow, on which no node between its ends overwrites a
variable. -/
def Reaches (v : View) (x : String) (d u : Node) : Prop :=
  ∃ between : List Node,
    (d :: (between ++ [u])).IsChain (fun m n => ⟨m, n⟩ ∈ v.flow.edges) ∧
      ∀ n ∈ between, ¬v.OverwritesAt n x

/-- An edge is a path. -/
theorem Reaches.edge (h : ⟨d, u⟩ ∈ v.flow.edges) : v.Reaches x d u :=
  ⟨[], List.isChain_pair.mpr h, by simp⟩

/-- A path goes on behind a node that does not overwrite the variable. -/
theorem Reaches.snoc (h : v.Reaches x d p) (hp : ¬v.OverwritesAt p x)
    (hedge : ⟨p, u⟩ ∈ v.flow.edges) : v.Reaches x d u := by
  obtain ⟨between, hchain, hbetween⟩ := h
  refine ⟨between ++ [p], ?_, ?_⟩
  · have hlist : d :: (between ++ [p] ++ [u]) = (d :: between) ++ p :: [u] := by simp
    rw [hlist, List.isChain_split]
    exact ⟨hchain, List.isChain_pair.mpr hedge⟩
  · intro n hn
    rcases List.mem_append.mp hn with hn | hn
    · exact hbetween n hn
    · rw [List.mem_singleton.mp hn]
      exact hp

/-! ### The analysis finds what paths say -/

/-- A node stops the definitions of the variable that its command writes as a whole. -/
theorem killed_iff : Reaching.killed v n x = true ↔ v.OverwritesAt n x := by
  unfold Reaching.killed OverwritesAt
  cases hc : v.commandAt n with
  | none => simp
  | some c =>
    dsimp only
    rw [Bool.and_eq_true]
    refine Command.overwrites_and_mem_defs_iff.trans ?_
    simp

/-- A definition that is alive after a node: it was made there, or it was made elsewhere and neither
a node on the way nor the node itself overwrites its variable. -/
def AliveAfter (v : View) (x : String) (d n : Node) : Prop :=
  v.DefinesAt d x ∧ (d = n ∨ v.Reaches x d n ∧ ¬v.OverwritesAt n x)

/-- What is alive after a predecessor reaches a node. -/
theorem AliveAfter.reaches (h : v.AliveAfter x d p) (hedge : ⟨p, u⟩ ∈ v.flow.edges) :
    v.Reaches x d u := by
  rcases h.2 with rfl | ⟨hreach, hover⟩
  · exact .edge hedge
  · exact hreach.snoc hover hedge

/-- A visit stores only what is alive along some path, if this is so for what is stored already. -/
theorem keeps_aliveAfter : (Reaching.worklist v).Keeps
    fun exits => ∀ n, ∀ def' ∈ exits.getD n ∅, v.AliveAfter def'.name def'.node n := by
  intro n exits exits' _ h hv m def' hdef
  rcases (Reaching.mem_getD_of_visit hv).mp hdef with ⟨rfl, hdef⟩ | ⟨-, hdef⟩
  · rcases Reaching.mem_transfer.mp hdef with ⟨hentry, hkill⟩ | hgen
    · -- It came from a predecessor: the path there goes on to the node visited.
      obtain ⟨p, hedge, hp⟩ := Reaching.mem_entry.mp hentry
      have halive := h p def' hp
      refine ⟨halive.1, .inr ⟨halive.reaches hedge, fun hover => ?_⟩⟩
      rw [killed_iff.mpr hover] at hkill
      cases hkill
    · obtain ⟨hnode, hdefines⟩ := Reaching.mem_generated.mp hgen
      rw [← hnode] at hdefines
      exact ⟨hdefines, .inl hnode⟩
  · exact h m def' hdef

/-- Each definition that the analysis finds alive after a node is so along some path. -/
theorem aliveAfter_of_mem_exits {def' : Definition}
    (h : def' ∈ (Reaching.exits v).getD n ∅) : v.AliveAfter def'.name def'.node n := by
  refine keeps_aliveAfter.knowledge_run ?_ (Reaching.visitBound v) n def' h
  intro n def' hdef
  exact absurd hdef Reaching.not_mem_getD_empty

/-- What is alive after the first node of a path is found alive before the last one. The induction
takes one node after the other from the front of the path. -/
theorem mem_entry_of_isChain {between : List Node}
    (hchain : (p :: (between ++ [u])).IsChain (fun m n => ⟨m, n⟩ ∈ v.flow.edges))
    (hbetween : ∀ n ∈ between, ¬v.OverwritesAt n x)
    (hp : ⟨x, d⟩ ∈ (Reaching.exits v).getD p ∅) :
    ⟨x, d⟩ ∈ Reaching.entry v (Reaching.exits v) u := by
  induction between generalizing p with
  | nil => exact Reaching.mem_entry.mpr ⟨p, (List.isChain_cons_cons.mp hchain).1, hp⟩
  | cons n between ih =>
    obtain ⟨hedge, hrest⟩ := List.isChain_cons_cons.mp hchain
    refine ih hrest (fun q hq => hbetween q (List.mem_cons_of_mem n hq)) ?_
    have hkill : Reaching.killed v n x = false :=
      Bool.eq_false_iff.mpr fun hk => hbetween n List.mem_cons_self (killed_iff.mp hk)
    -- The next node lets the definition through, so that it is alive after that node as well.
    have hexit := Reaching.getElem?_exits (v.flow.closed _ hedge).2
    refine Reaching.mem_getD.mpr ⟨_, hexit, Reaching.mem_transfer.mpr (.inl ⟨?_, hkill⟩)⟩
    exact Reaching.mem_entry.mpr ⟨p, hedge, hp⟩

/-- The first edge of a path starts at a node of the program. -/
theorem Reaches.mem_nodes (h : v.Reaches x d u) : d ∈ v.flow.nodes := by
  obtain ⟨between, hchain, -⟩ := h
  cases between with
  | nil => exact (v.flow.closed _ (List.isChain_cons_cons.mp hchain).1).1
  | cons n between => exact (v.flow.closed _ (List.isChain_cons_cons.mp hchain).1).1

/-- A definition is found alive before a node exactly if it reaches the node along some path. -/
theorem mem_entry_exits_iff :
    ⟨x, d⟩ ∈ Reaching.entry v (Reaching.exits v) u ↔ v.DefinesAt d x ∧ v.Reaches x d u := by
  constructor
  · intro h
    obtain ⟨p, hedge, hp⟩ := Reaching.mem_entry.mp h
    have halive := aliveAfter_of_mem_exits hp
    exact ⟨halive.1, halive.reaches hedge⟩
  · rintro ⟨hdefines, hreach⟩
    have hexit := Reaching.getElem?_exits hreach.mem_nodes
    have hown : ⟨x, d⟩ ∈ (Reaching.exits v).getD d ∅ :=
      Reaching.mem_getD.mpr ⟨_, hexit,
        Reaching.mem_transfer.mpr (.inr (Reaching.mem_generated.mpr ⟨rfl, hdefines⟩))⟩
    obtain ⟨between, hchain, hbetween⟩ := hreach
    exact mem_entry_of_isChain hchain hbetween hown

/-! ### The graph -/

theorem mem_sources {exits : Reaching.Exits} :
    d ∈ v.sources exits n ↔ ∃ x, v.ReadsAt n x ∧ ⟨x, d⟩ ∈ Reaching.entry v exits n := by
  unfold sources ReadsAt
  cases hc : v.commandAt n with
  | none => simp
  | some c =>
    simp only [List.mem_map, List.mem_filter, ExtTreeSet.mem_toList, Option.some.injEq,
      exists_eq_left']
    constructor
    · rintro ⟨⟨x, d⟩, ⟨hentry, hx⟩, rfl⟩
      exact ⟨x, hx, hentry⟩
    · rintro ⟨x, hx, hentry⟩
      exact ⟨⟨x, d⟩, ⟨hentry, hx⟩, rfl⟩

/-- The definitions that a node reads are linked to it by paths. -/
theorem mem_sources_exits_iff :
    d ∈ v.sources (Reaching.exits v) u ↔ ∃ x, v.DefinesAt d x ∧ v.ReadsAt u x ∧ v.Reaches x d u := by
  rw [mem_sources]
  refine exists_congr fun x => ?_
  rw [mem_entry_exits_iff]
  exact and_left_comm

/-- The listed pairs of a definition and a reader, of which the graph is made. -/
theorem mem_flatMap_sources {exits : Reaching.Exits} :
    (d, u) ∈ v.flow.nodes.toList.flatMap (fun n => (v.sources exits n).map fun d => (d, n)) ↔
      u ∈ v.flow.nodes ∧ d ∈ v.sources exits u := by
  simp only [List.mem_flatMap, ExtTreeSet.mem_toList, List.mem_map, Prod.mk.injEq]
  constructor
  · rintro ⟨n, hn, d', hd', rfl, rfl⟩
    exact ⟨hn, hd'⟩
  · rintro ⟨hu, hd⟩
    exact ⟨u, hu, d, hd, rfl, rfl⟩

/-- The def-use graph of a program has exactly the nodes of the program. It has an edge from one node
to another exactly if the first defines a variable that the second reads, and a path of control flow
leads from the first to the second on which no node in between writes that variable as a whole. A
node whose command is out of sight defines, reads and overwrites nothing. -/
theorem defUse_edges_are_paths (v : View) :
    v.defUse.nodes = v.flow.nodes ∧
      ∀ d u, ⟨d, u⟩ ∈ v.defUse.edges ↔
        ∃ x, v.DefinesAt d x ∧ v.ReadsAt u x ∧ v.Reaches x d u := by
  constructor
  · refine ExtTreeSet.ext_mem fun {n} => ?_
    unfold defUse
    rw [NodeGraph.mem_nodes_ofLists, ExtTreeSet.mem_toList]
    -- Both ends of an edge are nodes of the program, so that the edges add no node.
    refine or_iff_right_of_imp ?_
    rintro ⟨⟨d, u⟩, hpair, hn⟩
    obtain ⟨hu, hd⟩ := mem_flatMap_sources.mp hpair
    obtain ⟨x, -, -, hreach⟩ := mem_sources_exits_iff.mp hd
    rcases hn with rfl | rfl
    · exact hreach.mem_nodes
    · exact hu
  · intro d u
    unfold defUse
    rw [NodeGraph.mem_edges_ofLists, mem_flatMap_sources, mem_sources_exits_iff]
    -- Only nodes of the program are asked what they read, and a path ends at one of them.
    refine and_iff_right_of_imp ?_
    rintro ⟨x, hdefines, -, hreach⟩
    obtain ⟨p, hedge, -⟩ := Reaching.mem_entry.mp (mem_entry_exits_iff.mpr ⟨hdefines, hreach⟩)
    exact (v.flow.closed _ hedge).2

end Program.View

end AlarmDischarge
