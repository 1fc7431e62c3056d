import AlarmDischarge.Proofs.Propagation.Stored

/-!
# `AlarmDischarge.Proofs.Propagation.Contradiction`: opposites stored together

A visit drops a fact whose opposite is available (`filter_contradictions`), and what has been stored
stays available. So an opposite that arrives late is dropped as well, if the fact is the opposite of
its opposite. This is so except for a fact that begins with two negations: its opposite has one, and
the opposite of that has none.

* `eq_not_not_of_mem`: a fact and its opposite are stored together only if the fact begins with two
  negations;
* `no_literal_stored_with_negation`: so a formula that is no negation is never stored together with
  its negation;
* `opposites_stored_only_under_two_negations`: this is the exact condition, since each such fact of a
  command is stored together with its opposite by the run of some program.
-/

set_option autoImplicit false

namespace AlarmDischarge.Propagation

open Std

variable {g : NodeGraph} {commandAt : Node → Option Command} {t t' : FactTable} {m n : Node}
  {f : Formula}

/-! ### Facts that do not begin with two negations -/

/-- No node stores a fact and its opposite, facts that begin with two negations apart. -/
def Compatible (t : FactTable) : Prop :=
  ∀ n f, f ∈ t.factsAt n → f.negation ∈ t.factsAt n → ∃ h, f = .not (.not h)

/-- What a visit finds has no opposite among what is stored at the node. -/
theorem negation_not_mem_of_mem_transfer (ht : Grounded g commandAt t)
    (hf : f ∈ transfer g commandAt t n) : f.negation ∉ t.factsAt n :=
  fun hneg => (mem_transfer.mp hf).2.1 (ht n _ hneg).available

/-- A visit keeps a grounded table compatible. Of a fact and its opposite at the node visited, the
one that came with the visit is not the opposite of anything stored there. -/
theorem keeps_compatible :
    (worklist g commandAt).Keeps fun t => Grounded g commandAt t ∧ Compatible t := by
  rintro n t t' hn ⟨hground, hcomp⟩ hv
  refine ⟨keeps_grounded hn hground hv, ?_⟩
  intro m f hf hneg
  rw [eq_extend_of_visit hv, FactTable.mem_factsAt_extend] at hf hneg
  rcases hf with hf | ⟨rfl, hf⟩
  · rcases hneg with hneg | ⟨rfl, hneg⟩
    · exact hcomp m f hf hneg
    · -- The opposite is new. Its own opposite is not stored, so it is not the fact.
      have hne : f.negation.negation ≠ f := by
        intro heq
        have hnot := negation_not_mem_of_mem_transfer hground hneg
        rw [heq] at hnot
        exact hnot hf
      by_cases h : ∃ h, f = .not (.not h)
      · exact h
      · exact absurd (Formula.negation_negation fun h' heq => h ⟨h', heq⟩) hne
  · -- The fact is new, so that its opposite is neither stored nor found.
    rcases hneg with hneg | ⟨-, hneg⟩
    · exact absurd hneg (negation_not_mem_of_mem_transfer hground hf)
    · exact absurd (mem_transfer.mp hneg).1 (mem_transfer.mp hf).2.1

/-- A run stores a fact together with its opposite only if the fact begins with two negations. -/
theorem eq_not_not_of_mem {cap : Nat} (hf : f ∈ (propagate g commandAt cap).table.factsAt n)
    (hneg : f.negation ∈ (propagate g commandAt cap).table.factsAt n) :
    ∃ h, f = .not (.not h) := by
  have hblank : Grounded g commandAt (blank g) ∧ Compatible (blank g) :=
    ⟨grounded_blank, fun n f hf => by simp at hf⟩
  exact (table_of_keeps keeps_compatible hblank cap).2 n f hf hneg

/-- Whatever the graph, the commands and the cap are, no node stores both a formula that is no negation
and its negation. Where a fact and its opposite are stored together, the fact begins with two
negations. -/
theorem no_literal_stored_with_negation (g : NodeGraph) (commandAt : Node → Option Command)
    (cap : Nat) (n : Node) :
    let stored := (propagate g commandAt cap).table.factsAt n
    (∀ f, (∀ h, f ≠ .not h) → ¬(f ∈ stored ∧ .not f ∈ stored)) ∧
      ∀ f, f ∈ stored → f.negation ∈ stored → ∃ h, f = .not (.not h) := by
  intro stored
  have hpair : ∀ f, f ∈ stored → f.negation ∈ stored → ∃ h, f = .not (.not h) :=
    fun f hf hneg => eq_not_not_of_mem hf hneg
  refine ⟨?_, hpair⟩
  rintro f hlit ⟨hf, hnot⟩
  -- A formula that is no negation has its negation for its opposite.
  have hopp : f.negation = .not f := Formula.negation_eq_not hlit
  obtain ⟨h, heq⟩ := hpair f hf (hopp ▸ hnot)
  exact hlit (.not h) heq

/-! ### Facts that begin with two negations

A condition is assumed twice negated at one node and once negated at another, from which an edge
leads back to the first. The first node stores its own fact before its opposite arrives. -/

/-- The node that is visited first. -/
def early : Node := ⟨"main", 0⟩

/-- The node that is visited next. -/
def late : Node := ⟨"main", 1⟩

/-- An edge back from the later node to the earlier one. -/
def backEdge : NodeGraph := .ofLists [] [(late, early)]

/-- Assumes a condition twice negated early, and once negated late. -/
def twiceThenOnce (e : Expr) : Program :=
  Program.empty
    |>.addCommand early (.assume (.unary .not (.unary .not e)))
    |>.addCommand late (.assume (.unary .not e))

theorem mem_edges_backEdge : ⟨m, n⟩ ∈ backEdge.edges ↔ m = late ∧ n = early := by
  have hedges : backEdge.edges.toList = [⟨late, early⟩] := by decide +kernel
  rw [← ExtTreeSet.mem_toList, hedges, List.mem_singleton, Edge.mk.injEq]

section TwiceThenOnce

variable {e : Expr} {h : Formula} (he : e.conditionReading = .fact h)

include he

theorem mem_generated_early :
    f ∈ generated (twiceThenOnce e).commandAt early ↔ f = .not (.not h) := by
  have hcommand : (twiceThenOnce e).commandAt early =
      some (.assume (.unary .not (.unary .not e))) := rfl
  simp only [generated, hcommand, Command.mem_facts, Command.reading, Expr.conditionReading, he,
    Reading.map, Reading.fact.injEq]
  exact eq_comm

theorem mem_generated_late :
    f ∈ generated (twiceThenOnce e).commandAt late ↔ f = .not h := by
  have hcommand : (twiceThenOnce e).commandAt late = some (.assume (.unary .not e)) := rfl
  simp only [generated, hcommand, Command.mem_facts, Command.reading, Expr.conditionReading, he,
    Reading.map, Reading.fact.injEq]
  exact eq_comm

/-- At the later node nothing but its own fact is available. -/
theorem available_late : Available backEdge (twiceThenOnce e).commandAt t late f ↔ f = .not h := by
  have hnone : ¬∃ m, ⟨m, late⟩ ∈ backEdge.edges ∧ f ∈ t.factsAt m := by
    rintro ⟨m, hedge, -⟩
    exact absurd (mem_edges_backEdge.mp hedge).2 (by decide)
  unfold Available
  rw [mem_generated_late he]
  exact or_iff_right hnone

/-- At the earlier node its own fact is available, and what is stored at the later one. -/
theorem available_early :
    Available backEdge (twiceThenOnce e).commandAt t early f ↔
      f ∈ t.factsAt late ∨ f = .not (.not h) := by
  unfold Available
  rw [mem_generated_early he]
  refine or_congr_left ?_
  constructor
  · rintro ⟨m, hedge, hf⟩
    rwa [(mem_edges_backEdge.mp hedge).1] at hf
  · intro hf
    exact ⟨late, mem_edges_backEdge.mpr ⟨rfl, rfl⟩, hf⟩

/-- The earlier node finds its own fact as long as nothing is stored at the later one. -/
theorem mem_transfer_early (ht : t.factsAt late = ∅) :
    .not (.not h) ∈ transfer backEdge (twiceThenOnce e).commandAt t early := by
  have hgen := (mem_generated_early he).mpr rfl
  refine mem_transfer.mpr ⟨.inr hgen, ?_, isSelfContradictory_of_generated hgen⟩
  intro hneg
  rcases (available_early he).mp hneg with hstored | heq
  · rw [ht] at hstored
    simp at hstored
  · exact Formula.not_ne_self _ heq.symm

/-- The later node finds its own fact, and nothing else. -/
theorem mem_transfer_late :
    f ∈ transfer backEdge (twiceThenOnce e).commandAt t late ↔ f = .not h := by
  constructor
  · intro hf
    exact (available_late he).mp (mem_transfer.mp hf).1
  · rintro rfl
    have hgen := (mem_generated_late he).mpr rfl
    refine mem_transfer.mpr ⟨.inr hgen, ?_, isSelfContradictory_of_generated hgen⟩
    intro hneg
    exact Formula.not_ne_self h ((available_late he).mp hneg).symm

/-- Once the later node has stored its fact, the earlier one finds it too, since what it opposes is
not the fact of the earlier node. -/
theorem not_mem_transfer_early (ht : ∀ f, f ∈ t.factsAt late ↔ f = .not h) :
    .not h ∈ transfer backEdge (twiceThenOnce e).commandAt t early := by
  refine mem_transfer.mpr ⟨(available_early he).mpr (.inl ((ht _).mpr rfl)), ?_,
    isSelfContradictory_of_generated ((mem_generated_late he).mpr rfl)⟩
  intro hneg
  rcases (available_early he).mp hneg with hstored | heq
  · exact Formula.not_ne_self h ((ht h).mp hstored).symm
  · have hsize := congrArg sizeOf heq
    simp only [Formula.negation, Formula.not.sizeOf_spec] at hsize
    omega

/-- Three visits store both facts at the earlier node: it stores its own, the later node stores its
fact, and this arrives at the earlier node on the second visit there. -/
theorem opposites_mem_early :
    let stored := (propagate backEdge (twiceThenOnce e).commandAt 3).table.factsAt early
    .not (.not h) ∈ stored ∧ .not h ∈ stored := by
  let w := worklist backEdge (twiceThenOnce e).commandAt
  let s₀ := w.start (blank backEdge)
  have hrun : (propagate backEdge (twiceThenOnce e).commandAt 3).table =
      (w.step (w.step (w.step s₀))).knowledge := by
    rw [table_propagate, Worklist.run_succ, Worklist.run_succ, Worklist.run_succ]
    rfl
  have hempty : ∀ n f, f ∉ s₀.knowledge.factsAt n := by
    intro n f
    show f ∉ (blank backEdge).factsAt n
    simp
  -- The first visit stores the fact of the earlier node, from which no edge leads on.
  have hq₀ : s₀.queue = [early, late] := by
    show backEdge.nodes.toList = _
    decide +kernel
  have hown : .not (.not h) ∈ transfer backEdge (twiceThenOnce e).commandAt s₀.knowledge early :=
    mem_transfer_early he factsAt_blank
  have hq₁ : (w.step s₀).queue = [late] := by
    rw [queue_step_of_not_mem hq₀ hown (hempty _ _)]
    decide +kernel
  -- The second stores the fact of the later node and calls for a visit of the earlier one.
  have hlate₁ : ∀ f, f ∉ (w.step s₀).knowledge.factsAt late := by
    intro f hf
    rcases (mem_factsAt_step hq₀).mp hf with hf | ⟨heq, -⟩
    · exact hempty late f hf
    · exact absurd heq (by decide)
  have hq₂ : (w.step (w.step s₀)).queue = [early] := by
    rw [queue_step_of_not_mem hq₁ ((mem_transfer_late he).mpr rfl) (hlate₁ _)]
    decide +kernel
  have hlate₂ : ∀ f, f ∈ (w.step (w.step s₀)).knowledge.factsAt late ↔ f = .not h := by
    intro f
    rw [mem_factsAt_step hq₁, mem_transfer_late he]
    simp [hlate₁ f]
  rw [hrun]
  constructor
  · -- What the first visit stores stays.
    refine (mem_factsAt_step hq₂).mpr (.inl ((mem_factsAt_step hq₁).mpr (.inl ?_)))
    exact (mem_factsAt_step hq₀).mpr (.inr ⟨rfl, hown⟩)
  · exact (mem_factsAt_step hq₂).mpr (.inr ⟨rfl, not_mem_transfer_early he hlate₂⟩)

end TwiceThenOnce

/-- When a fact of a command is stored together with its opposite. If it does not begin with two
negations, no run on any graph, with any commands and any cap, stores the two at one node. If it
does, there are a program and a graph whose run stores the two at one node. -/
theorem opposites_stored_only_under_two_negations (f : Formula)
    (hf : ∃ c : Command, f ∈ c.facts) :
    ((∀ h, f ≠ .not (.not h)) →
      ∀ (g : NodeGraph) (commandAt : Node → Option Command) (cap : Nat) (n : Node),
        f ∈ (propagate g commandAt cap).table.factsAt n →
          f.negation ∉ (propagate g commandAt cap).table.factsAt n) ∧
    ∀ h, f = .not (.not h) →
      ∃ (p : Program) (g : NodeGraph) (cap : Nat) (n : Node),
        f ∈ (propagate g p.commandAt cap).table.factsAt n ∧
          f.negation ∈ (propagate g p.commandAt cap).table.factsAt n := by
  constructor
  · intro hne g commandAt cap n hstored hneg
    obtain ⟨h, heq⟩ := eq_not_not_of_mem hstored hneg
    exact hne h heq
  · rintro h rfl
    obtain ⟨c, hc⟩ := hf
    obtain ⟨e, -, he⟩ := Command.eq_assume_of_not_not_mem_facts hc
    exact ⟨twiceThenOnce e, backEdge, 3, early, opposites_mem_early he⟩

/-- The condition `i < n`. -/
def belowBound : Expr := .binary .lt (.var (.localInt "i")) (.var (.localInt "n"))

/-- A run that goes on until no node waits stores `!(!(i < n))` and `!(i < n)` at one node. -/
theorem stored_not_contradictionFree :
    (propagate backEdge (twiceThenOnce belowBound).commandAt 100).converged = true ∧
      ((propagate backEdge (twiceThenOnce belowBound).commandAt 100).table.factsAt
        early).isContradictionFree = false := by
  decide +kernel

/-- The run that stores `!(!(i < n))` and `!(i < n)` at one node does not store `i < n` there. -/
theorem literals_of_belowBound :
    let stored :=
      (propagate backEdge (twiceThenOnce belowBound).commandAt 3).table.factsAt early
    let once : Formula := .lt (.var "i") (.var "n")
    (.not (.not once) ∈ stored ∧ .not once ∈ stored ∧ once ∉ stored) ∧
      ∃ h, Formula.not (.not once) = .not (.not h) := by
  intro stored once
  have hread : belowBound.conditionReading = .fact once := by decide
  obtain ⟨htwice, honce⟩ := opposites_mem_early hread
  obtain ⟨hlit, hpair⟩ :=
    no_literal_stored_with_negation backEdge (twiceThenOnce belowBound).commandAt 3 early
  refine ⟨⟨htwice, honce, ?_⟩, hpair _ htwice honce⟩
  intro hplain
  exact hlit once (by simp [once]) ⟨hplain, honce⟩

/-- A comparison is never stored together with its opposite, and twice negated it can be. -/
theorem opposites_of_belowBound :
    (∃ c : Command, .lt (.var "i") (.var "n") ∈ c.facts) ∧
    (∀ (g : NodeGraph) (commandAt : Node → Option Command) (cap : Nat) (n : Node),
      .lt (.var "i") (.var "n") ∈ (propagate g commandAt cap).table.factsAt n →
        .not (.lt (.var "i") (.var "n")) ∉ (propagate g commandAt cap).table.factsAt n) ∧
    (∃ c : Command, .not (.not (.lt (.var "i") (.var "n"))) ∈ c.facts) ∧
    ∃ (p : Program) (g : NodeGraph) (cap : Nat) (n : Node),
      .not (.not (.lt (.var "i") (.var "n"))) ∈ (propagate g p.commandAt cap).table.factsAt n ∧
        .not (.lt (.var "i") (.var "n")) ∈ (propagate g p.commandAt cap).table.factsAt n := by
  have honce : ∃ c : Command, .lt (.var "i") (.var "n") ∈ c.facts :=
    ⟨.assume belowBound, Command.mem_facts.mpr (by decide)⟩
  have htwice : ∃ c : Command, .not (.not (.lt (.var "i") (.var "n"))) ∈ c.facts :=
    ⟨.assume (.unary .not (.unary .not belowBound)), Command.mem_facts.mpr (by decide)⟩
  refine ⟨honce, ?_, htwice, ?_⟩
  · exact (opposites_stored_only_under_two_negations _ honce).1 (by simp)
  · exact (opposites_stored_only_under_two_negations _ htwice).2 _ rfl

end AlarmDischarge.Propagation
