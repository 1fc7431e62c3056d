import AlarmDischarge.Propagation
import AlarmDischarge.Proofs.Fact
import AlarmDischarge.Proofs.Slice
import AlarmDischarge.Proofs.Worklist

/-!
# `AlarmDischarge.Proofs.Propagation.Stored`: what is stored, and where it comes from

A visit of a node in `solve` is opened up once, in `visit_eq_none_iff` and `eq_extend_of_visit`. The
rest of the module says what follows from these two for whole runs:

* `carried_of_mem`: whatever is stored at a node was generated at some node and is stored all along a
  path from there;
* `Carried.available`: so what is stored at a node is generated there or stored at a predecessor;
* `mem_of_not_waiting`: a node that does not wait stores whatever a visit would find there;
* `mem_of_generated`: so when no node waits, a fact whose opposite is generated nowhere is stored all
  along the paths that begin where it is generated.
-/

set_option autoImplicit false

namespace AlarmDischarge

open Std

namespace FactTable

variable {t : FactTable} {m n : Node} {facts : FactSet} {f : Formula}

theorem getElem?_extend :
    (t.extend n facts)[m]? = if m = n then some (t.factsAt n ∪ facts) else t[m]? :=
  FiniteSet.getElem?_insert_eq_ite

theorem factsAt_eq : t.factsAt n = t[n]?.getD ∅ := ExtTreeMap.getD_eq_getD_getElem?

@[simp]
theorem factsAt_extend_self : (t.extend n facts).factsAt n = t.factsAt n ∪ facts := by
  rw [factsAt_eq, getElem?_extend, if_pos rfl, Option.getD_some]

theorem factsAt_extend_of_ne (h : m ≠ n) : (t.extend n facts).factsAt m = t.factsAt m := by
  rw [factsAt_eq, getElem?_extend, if_neg h, ← factsAt_eq]

/-- After facts are added at a node, a node holds what it held before, and the node at which they
were added holds them too. -/
theorem mem_factsAt_extend :
    f ∈ (t.extend n facts).factsAt m ↔ f ∈ t.factsAt m ∨ m = n ∧ f ∈ facts := by
  by_cases h : m = n
  · subst h
    rw [factsAt_extend_self, ExtTreeSet.mem_union_iff]
    simp
  · rw [factsAt_extend_of_ne h]
    simp [h]

end FactTable

namespace Propagation

variable {g : NodeGraph} {commandAt : Node → Option Command} {t t' : FactTable} {m n : Node}
  {f : Formula}

/-! ### One visit -/

theorem mem_generated :
    f ∈ generated commandAt n ↔ ∃ c, commandAt n = some c ∧ f ∈ c.facts := by
  unfold generated
  cases commandAt n with
  | none => simp
  | some c => simp

/-- A fact that a visit of a node takes into account: it is generated there or stored at a
predecessor. -/
def Available (g : NodeGraph) (commandAt : Node → Option Command) (t : FactTable) (n : Node)
    (f : Formula) : Prop :=
  (∃ m, ⟨m, n⟩ ∈ g.edges ∧ f ∈ t.factsAt m) ∨ f ∈ generated commandAt n

theorem mem_incoming : f ∈ incoming g t n ↔ ∃ m, ⟨m, n⟩ ∈ g.edges ∧ f ∈ t.factsAt m := by
  unfold incoming
  simp only [FiniteSet.mem_union, ExtTreeSet.mem_toList, NodeGraph.mem_preds]

/-- A visit finds what is available without its opposite. -/
theorem mem_transfer :
    f ∈ transfer g commandAt t n ↔
      Available g commandAt t n f ∧ ¬Available g commandAt t n f.negation ∧
        f.isSelfContradictory = false := by
  unfold transfer Available
  rw [FactSet.mem_reconcile, mem_incoming, mem_incoming]

/-- A visit depends on nothing but what is stored at the predecessors. -/
theorem transfer_congr (h : ∀ m, ⟨m, n⟩ ∈ g.edges → t'.factsAt m = t.factsAt m) :
    transfer g commandAt t' n = transfer g commandAt t n := by
  have hin : incoming g t' n = incoming g t n := by
    refine ExtTreeSet.ext_mem fun f => ?_
    rw [mem_incoming, mem_incoming]
    constructor
    · rintro ⟨m, he, hf⟩
      exact ⟨m, he, h m he ▸ hf⟩
    · rintro ⟨m, he, hf⟩
      exact ⟨m, he, (h m he).symm ▸ hf⟩
  unfold transfer
  rw [hin]

theorem visit_eq_none_iff :
    visit g commandAt n t = none ↔ ∀ f ∈ transfer g commandAt t n, f ∈ t.factsAt n := by
  rw [← FiniteSet.isSubset_iff]
  simp only [visit]
  split
  · simp [*]
  · simp [*]

/-- A visit that stores something adds what it finds to its node. -/
theorem eq_extend_of_visit (h : visit g commandAt n t = some t') :
    t' = t.extend n (transfer g commandAt t n) := by
  simp only [visit] at h
  split at h
  · cases h
  · exact (Option.some.inj h).symm

/-- A visit loses nothing that is stored. -/
theorem mem_of_visit (h : visit g commandAt n t = some t') (hf : f ∈ t.factsAt m) :
    f ∈ t'.factsAt m := by
  rw [eq_extend_of_visit h]
  exact FactTable.mem_factsAt_extend.mpr (.inl hf)

/-- What is stored after a visit of the first waiting node: what was stored before, and at the node
also what the visit finds. -/
theorem mem_factsAt_step {s : Worklist.State FactTable} {rest : List Node}
    (hq : s.queue = n :: rest) :
    f ∈ ((worklist g commandAt).step s).knowledge.factsAt m ↔
      f ∈ s.knowledge.factsAt m ∨ m = n ∧ f ∈ transfer g commandAt s.knowledge n := by
  rcases Worklist.step_cases (w := worklist g commandAt) hq with ⟨hv, he⟩ | ⟨t', hv, he⟩
  · rw [he]
    constructor
    · exact Or.inl
    · rintro (hf | ⟨rfl, hf⟩)
      · exact hf
      · exact visit_eq_none_iff.mp hv f hf
  · have ht' : t' = s.knowledge.extend n (transfer g commandAt s.knowledge n) :=
      eq_extend_of_visit hv
    rw [he, ht']
    exact FactTable.mem_factsAt_extend

/-- A visit that finds something new calls for a visit of each successor. -/
theorem queue_step_of_not_mem {s : Worklist.State FactTable} {rest : List Node}
    (hq : s.queue = n :: rest) (hf : f ∈ transfer g commandAt s.knowledge n)
    (hnew : f ∉ s.knowledge.factsAt n) :
    ((worklist g commandAt).step s).queue = (g.succs n).toList.foldl Worklist.enqueue rest := by
  rcases Worklist.step_cases (w := worklist g commandAt) hq with ⟨hv, -⟩ | ⟨t', -, he⟩
  · exact absurd (visit_eq_none_iff.mp hv f hf) hnew
  · rw [he]
    rfl

/-! ### The first table -/

/-- The table in which every node of a graph is known and nothing is stored. -/
def blank (g : NodeGraph) : FactTable := g.nodes.toList.foldl (fun t n => t.extend n ∅) ∅

theorem getElem?_foldl_extend_empty {ns : List Node} (ht : ∀ n, t.factsAt n = ∅) :
    (ns.foldl (fun t n => t.extend n ∅) t)[n]? = if n ∈ ns then some ∅ else t[n]? := by
  induction ns generalizing t with
  | nil => simp
  | cons m ns ih =>
    have hempty : ∀ n, (t.extend m ∅).factsAt n = ∅ := by
      intro n
      refine ExtTreeSet.eq_empty_iff_forall_not_mem.mpr fun f hf => ?_
      rw [FactTable.mem_factsAt_extend, ht] at hf
      simp at hf
    -- Adding nothing to nothing leaves nothing, so that the node is known and stores nothing.
    have hm : t.factsAt m ∪ ∅ = ∅ := by rw [← FactTable.factsAt_extend_self, hempty]
    rw [List.foldl_cons, ih hempty, FactTable.getElem?_extend, hm]
    by_cases hn : n ∈ ns
    · simp [hn]
    · simp [hn]

theorem getElem?_blank : (blank g)[n]? = if n ∈ g.nodes then some ∅ else none := by
  unfold blank
  rw [getElem?_foldl_extend_empty fun n => ExtTreeMap.getD_empty]
  simp [ExtTreeSet.mem_toList]

@[simp]
theorem factsAt_blank : (blank g).factsAt n = ∅ := by
  rw [FactTable.factsAt_eq, getElem?_blank]
  split <;> rfl

theorem visits_start : (start g commandAt).visits = 0 := rfl

/-- The table of a run is what the visits make of the first table. -/
theorem table_propagate (cap : Nat) :
    (propagate g commandAt cap).table =
      ((worklist g commandAt).run cap ((worklist g commandAt).start (blank g))).knowledge := rfl

theorem converged_propagate {cap : Nat} :
    (propagate g commandAt cap).converged = true ↔
      ((worklist g commandAt).run cap ((worklist g commandAt).start (blank g))).queue = [] :=
  List.isEmpty_iff

/-- What holds of the first table and is kept by every visit holds of the table of a run. -/
theorem table_of_keeps {I : FactTable → Prop} (hI : (worklist g commandAt).Keeps I)
    (hblank : I (blank g)) (cap : Nat) : I (propagate g commandAt cap).table := by
  rw [table_propagate]
  exact hI.knowledge_run hblank cap

/-! ### Where stored facts come from -/

/-- A fact that is stored at a node for a reason: it is generated there, or it is carried to a
predecessor for a reason. A chain of reasons is finite, so no fact goes round in a circle without
being generated on it. -/
inductive Carried (g : NodeGraph) (commandAt : Node → Option Command) (t : FactTable) (f : Formula) :
    Node → Prop where
  | source {n : Node} (gen : f ∈ generated commandAt n) (stored : f ∈ t.factsAt n) :
      Carried g commandAt t f n
  | along {m n : Node} (edge : ⟨m, n⟩ ∈ g.edges) (before : Carried g commandAt t f m)
      (stored : f ∈ t.factsAt n) : Carried g commandAt t f n

namespace Carried

theorem stored (h : Carried g commandAt t f n) : f ∈ t.factsAt n := by
  cases h with
  | source _ stored => exact stored
  | along _ _ stored => exact stored

/-- Reasons stay reasons when more is stored. -/
theorem mono (hle : ∀ n, f ∈ t.factsAt n → f ∈ t'.factsAt n) (h : Carried g commandAt t f n) :
    Carried g commandAt t' f n := by
  induction h with
  | source gen stored => exact .source gen (hle _ stored)
  | along edge _ stored ih => exact .along edge ih (hle _ stored)

/-- What a node has a reason to store is available there. -/
theorem available (h : Carried g commandAt t f n) : Available g commandAt t n f := by
  cases h with
  | source gen _ => exact .inr gen
  | along edge before _ => exact .inl ⟨_, edge, before.stored⟩

/-- What is stored at a node of a graph is generated at a node of the graph, from which a path leads
to the first node on which the fact is stored everywhere. -/
theorem exists_path (h : Carried g commandAt t f n) (hn : n ∈ g.nodes) :
    ∃ m ∈ g.nodes, f ∈ generated commandAt m ∧
      g.LeadsTo (fun p => (t.factsAt p).contains f) n m := by
  induction h with
  | source gen _ => exact ⟨_, hn, gen, .here⟩
  | along edge before _ ih =>
    obtain ⟨m, hm, hgen, hpath⟩ := ih (g.closed _ edge).1
    exact ⟨m, hm, hgen, hpath.trans (.step edge before.stored .here)⟩

theorem exists_generated (h : Carried g commandAt t f n) (hn : n ∈ g.nodes) :
    ∃ m ∈ g.nodes, f ∈ generated commandAt m := by
  obtain ⟨m, hm, hgen, -⟩ := h.exists_path hn
  exact ⟨m, hm, hgen⟩

end Carried

/-- A table in which everything is stored for a reason. -/
def Grounded (g : NodeGraph) (commandAt : Node → Option Command) (t : FactTable) : Prop :=
  ∀ n f, f ∈ t.factsAt n → Carried g commandAt t f n

theorem grounded_blank : Grounded g commandAt (blank g) := by
  intro n f hf
  simp at hf

/-- A visit keeps a table grounded: what it adds is generated at its node, or stored at a predecessor
for a reason. -/
theorem keeps_grounded : (worklist g commandAt).Keeps (Grounded g commandAt) := by
  intro n t t' _ ht hv m f hf
  -- The reasons that there were before the visit are reasons still.
  have hold : ∀ p, Carried g commandAt t f p → Carried g commandAt t' f p :=
    fun p hp => hp.mono fun _ hq => mem_of_visit hv hq
  have hf' : f ∈ t.factsAt m ∨ m = n ∧ f ∈ transfer g commandAt t n := by
    rw [eq_extend_of_visit hv] at hf
    exact FactTable.mem_factsAt_extend.mp hf
  rcases hf' with hstored | ⟨rfl, hfound⟩
  · exact hold m (ht m f hstored)
  · rcases (mem_transfer.mp hfound).1 with ⟨p, he, hp⟩ | hgen
    · exact .along he (hold p (ht p f hp)) hf
    · exact .source hgen hf

/-- Whatever a run stores, it stores for a reason. -/
theorem carried_of_mem {cap : Nat} (hf : f ∈ (propagate g commandAt cap).table.factsAt n) :
    Carried g commandAt (propagate g commandAt cap).table f n :=
  table_of_keeps keeps_grounded grounded_blank cap n f hf

/-! ### What a run that has converged stores -/

/-- A visit stores what it finds, and what is found at a node changes only when a predecessor is
visited. -/
theorem settles : (worklist g commandAt).Settles
    fun n t => ∀ f ∈ transfer g commandAt t n, f ∈ t.factsAt n where
  found h := visit_eq_none_iff.mp h
  kept {n m t t'} hv hsucc hm := by
    have ht : t' = t.extend n (transfer g commandAt t n) := eq_extend_of_visit hv
    -- The node visited is no predecessor of `m`, so that the same is found at `m` as before.
    have hsame : transfer g commandAt t' m = transfer g commandAt t m := by
      refine transfer_congr fun p he => ?_
      rw [ht]
      refine FactTable.factsAt_extend_of_ne ?_
      rintro rfl
      exact hsucc (NodeGraph.mem_succs.mpr he)
    rw [hsame]
    intro f hf
    rw [ht]
    refine FactTable.mem_factsAt_extend.mpr ?_
    rcases hm with rfl | hm
    · exact .inr ⟨rfl, hf⟩
    · exact .inl (hm f hf)

/-- A node that does not wait stores whatever a visit would find there. -/
theorem mem_of_not_waiting {cap : Nat} (hn : n ∈ g.nodes)
    (hwait : n ∉ ((worklist g commandAt).run cap (start g commandAt)).queue)
    (hf : f ∈ transfer g commandAt (propagate g commandAt cap).table n) :
    f ∈ (propagate g commandAt cap).table.factsAt n :=
  settles.run cap n hn hwait f hf

theorem not_waiting_of_converged {cap : Nat}
    (hconv : (propagate g commandAt cap).converged = true) :
    n ∉ ((worklist g commandAt).run cap (start g commandAt)).queue := by
  rw [List.isEmpty_iff.mp hconv]
  exact List.not_mem_nil

/-- When no node waits, a node stores whatever a visit would find there. -/
theorem mem_of_mem_transfer {cap : Nat} (hconv : (propagate g commandAt cap).converged = true)
    (hn : n ∈ g.nodes)
    (hf : f ∈ transfer g commandAt (propagate g commandAt cap).table n) :
    f ∈ (propagate g commandAt cap).table.factsAt n :=
  mem_of_not_waiting hn (not_waiting_of_converged hconv) hf

theorem isSelfContradictory_of_generated (hf : f ∈ generated commandAt n) :
    f.isSelfContradictory = false := by
  obtain ⟨c, -, hc⟩ := mem_generated.mp hf
  exact Command.not_isSelfContradictory hc

/-- What is generated at no node of a graph is available at none. -/
theorem not_available_of_forall_not_generated {cap : Nat} (hn : n ∈ g.nodes)
    (hf : ∀ m ∈ g.nodes, f ∉ generated commandAt m) :
    ¬Available g commandAt (propagate g commandAt cap).table n f := by
  rintro (⟨p, he, hp⟩ | hgen)
  · obtain ⟨m, hm, hgen⟩ := (carried_of_mem hp).exists_generated (g.closed _ he).1
    exact hf m hm hgen
  · exact hf n hn hgen

section Unopposed

variable {cap : Nat} (hconv : (propagate g commandAt cap).converged = true)
  (hself : f.isSelfContradictory = false)
  (hopp : ∀ m ∈ g.nodes, f.negation ∉ generated commandAt m)

include hconv hself hopp

/-- When no node waits, a fact whose opposite is generated nowhere is stored wherever it is
available. -/
theorem mem_of_available (hn : n ∈ g.nodes)
    (hf : Available g commandAt (propagate g commandAt cap).table n f) :
    f ∈ (propagate g commandAt cap).table.factsAt n :=
  mem_of_mem_transfer hconv hn
    (mem_transfer.mpr ⟨hf, not_available_of_forall_not_generated hn hopp, hself⟩)

/-- Such a fact travels along every path: the induction is on the path, and at each edge the fact is
available at the end of the edge because it is stored at its beginning. -/
theorem mem_of_leadsTo {allow : Node → Bool} {target : Node} (hpath : g.LeadsTo allow target n)
    (hf : f ∈ (propagate g commandAt cap).table.factsAt n) :
    f ∈ (propagate g commandAt cap).table.factsAt target := by
  induction hpath with
  | here => exact hf
  | step edge _ _ ih =>
    exact ih (mem_of_available hconv hself hopp (g.closed _ edge).2 (.inl ⟨_, edge, hf⟩))

end Unopposed

/-- So it is stored wherever a path leads from a node that generates it. -/
theorem mem_of_generated {allow : Node → Bool} {target : Node} {cap : Nat}
    (hconv : (propagate g commandAt cap).converged = true)
    (hopp : ∀ m ∈ g.nodes, f.negation ∉ generated commandAt m) (hn : n ∈ g.nodes)
    (hgen : f ∈ generated commandAt n) (hpath : g.LeadsTo allow target n) :
    f ∈ (propagate g commandAt cap).table.factsAt target := by
  have hself := isSelfContradictory_of_generated hgen
  have hsource : f ∈ (propagate g commandAt cap).table.factsAt n :=
    mem_of_available hconv hself hopp hn (.inr hgen)
  exact mem_of_leadsTo hconv hself hopp hpath hsource

end Propagation

end AlarmDischarge
