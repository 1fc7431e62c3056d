import AlarmDischarge.Proofs.FiniteSet
import AlarmDischarge.Worklist
import Mathlib.Algebra.GroupWithZero.Nat

/-!
# `AlarmDischarge.Proofs.Worklist`: what every run of a worklist keeps

The two analyses of the library (`solve` and `reaching_out`) are runs of one loop. What can be said
about a run without knowing what a visit does is said here, once for both:

* `step_cases`: the two things a visit of the first waiting node can do;
* `run_add`, `run_eq_of_queue_nil`: a run can be cut into two, and a run that has emptied its queue
  is not changed by a larger bound;
* `run_congr`: a run depends on nothing but what the visits of the nodes of its graph do;
* `Keeps.knowledge_run`: what every visit keeps, a run keeps;
* `Settles.run`: what a visit of a node establishes, and only a visit of a predecessor can undo,
  holds at every node that does not wait;
* `Climbs.queue_run`: if every useful visit raises the rank of its node, and ranks are bounded, the
  queue is empty after as many visits as there are nodes, plus the bound for each edge;
* `Climbs.exists_total`: so there is a number of visits that a run takes if it is let, and a run
  with a smaller bound stops at its bound;
* `runMarked_start`: a run may keep a set of the nodes that wait (`queued`) in place of searching the
  queue: the set stays in step with the queue, and the run is the same.
-/

set_option autoImplicit false

namespace AlarmDischarge.Worklist

open Std

variable {σ : Type} {w : Worklist σ} {s : State σ} {k k' : σ}

/-! ### The queue -/

@[simp]
theorem mem_enqueue {queue : List Node} {m n : Node} :
    m ∈ enqueue queue n ↔ m ∈ queue ∨ m = n := by
  unfold enqueue
  by_cases hn : n ∈ queue
  · rw [if_pos hn]
    constructor
    · exact Or.inl
    · rintro (hm | rfl)
      · exact hm
      · exact hn
  · rw [if_neg hn, List.mem_append, List.mem_singleton]

/-- What waits after some nodes have joined a queue. -/
@[simp]
theorem mem_foldl_enqueue {ns queue : List Node} {m : Node} :
    m ∈ ns.foldl enqueue queue ↔ m ∈ queue ∨ m ∈ ns := by
  induction ns generalizing queue with
  | nil => simp
  | cons n ns ih => rw [List.foldl_cons, ih, mem_enqueue, List.mem_cons, or_assoc]

theorem length_enqueue_le (queue : List Node) (n : Node) :
    (enqueue queue n).length ≤ queue.length + 1 := by
  unfold enqueue
  split
  · omega
  · simp

/-- Each node that joins makes the queue longer by one at most. -/
theorem length_foldl_enqueue_le (ns queue : List Node) :
    (ns.foldl enqueue queue).length ≤ queue.length + ns.length := by
  induction ns generalizing queue with
  | nil => simp
  | cons n ns ih =>
    have hn := length_enqueue_le queue n
    have hns := ih (enqueue queue n)
    rw [List.foldl_cons, List.length_cons]
    omega

/-- Nobody leaves the queue when nodes join it. -/
theorem le_length_foldl_enqueue (ns queue : List Node) :
    queue.length ≤ (ns.foldl enqueue queue).length := by
  induction ns generalizing queue with
  | nil => simp
  | cons n ns ih =>
    have hn : queue.length ≤ (enqueue queue n).length := by
      unfold enqueue
      split
      · omega
      · simp
    rw [List.foldl_cons]
    exact Nat.le_trans hn (ih (enqueue queue n))

/-- Nodes that wait already change nothing by joining. -/
theorem foldl_enqueue_of_subset {ns queue : List Node} (h : ∀ n ∈ ns, n ∈ queue) :
    ns.foldl enqueue queue = queue := by
  induction ns with
  | nil => rfl
  | cons n ns ih =>
    have hn : enqueue queue n = queue := by
      unfold enqueue
      rw [if_pos (h n List.mem_cons_self)]
    rw [List.foldl_cons, hn]
    exact ih fun m hm => h m (List.mem_cons_of_mem n hm)

theorem filter_enqueue (p : Node → Bool) (queue : List Node) (n : Node) :
    (enqueue queue n).filter p =
      if p n then enqueue (queue.filter p) n else queue.filter p := by
  unfold enqueue
  by_cases hp : p n
  · by_cases hn : n ∈ queue
    · rw [if_pos hn, if_pos hp, if_pos (List.mem_filter.mpr ⟨hn, hp⟩)]
    · rw [if_neg hn, if_pos hp, if_neg fun h => hn (List.mem_filter.mp h).1, List.filter_append,
        List.filter_cons_of_pos hp, List.filter_nil]
  · by_cases hn : n ∈ queue
    · rw [if_pos hn, if_neg hp]
    · rw [if_neg hn, if_neg hp, List.filter_append, List.filter_cons_of_neg hp, List.filter_nil,
        List.append_nil]

/-- Nodes with a property join the others with it in the order in which they would join all. -/
theorem filter_foldl_enqueue (p : Node → Bool) (ns queue : List Node) :
    (ns.foldl enqueue queue).filter p = (ns.filter p).foldl enqueue (queue.filter p) := by
  induction ns generalizing queue with
  | nil => rfl
  | cons n ns ih =>
    rw [List.foldl_cons, ih, filter_enqueue]
    by_cases hp : p n
    · rw [if_pos hp, List.filter_cons_of_pos hp, List.foldl_cons]
    · rw [if_neg hp, List.filter_cons_of_neg hp]

/-! ### Steps and runs -/

/-- The two things a visit of the first waiting node can do: it brings nothing new and the node
leaves the queue, or it brings new knowledge and the successors of the node join the queue. -/
theorem step_cases {n : Node} {rest : List Node} (hq : s.queue = n :: rest) :
    (w.visit n s.knowledge = none ∧ w.step s = ⟨rest, s.knowledge, s.visits + 1⟩) ∨
      ∃ k', w.visit n s.knowledge = some k' ∧
        w.step s = ⟨(w.graph.succs n).toList.foldl enqueue rest, k', s.visits + 1⟩ := by
  unfold step
  rw [hq]
  cases hv : w.visit n s.knowledge with
  | none => exact .inl ⟨rfl, by simp only [hv]⟩
  | some k' => exact .inr ⟨k', rfl, by simp only [hv]⟩

theorem step_of_queue_nil (hq : s.queue = []) : w.step s = s := by
  unfold step
  rw [hq]

theorem run_of_queue_nil (bound : Nat) (hq : s.queue = []) : w.run bound s = s := by
  cases bound with
  | zero => rfl
  | succ bound => rw [run, hq, List.isEmpty_nil, if_pos rfl]

/-- A run is one visit and then the rest of the run. With no node waiting both sides stand still. -/
theorem run_succ (bound : Nat) (s : State σ) : w.run (bound + 1) s = w.run bound (w.step s) := by
  cases hq : s.queue with
  | nil => rw [step_of_queue_nil hq, run_of_queue_nil _ hq, run_of_queue_nil _ hq]
  | cons n rest => rw [run, hq, List.isEmpty_cons, if_neg (by simp)]

/-- A run can be cut in two. -/
theorem run_add (a b : Nat) (s : State σ) : w.run (a + b) s = w.run b (w.run a s) := by
  induction a generalizing s with
  | zero => rw [Nat.zero_add, run]
  | succ a ih => rw [Nat.succ_add, run_succ, run_succ, ih]

/-- Once no node waits, a larger bound changes nothing. -/
theorem run_eq_of_queue_nil {a b : Nat} (hab : a ≤ b) (hq : (w.run a s).queue = []) :
    w.run b s = w.run a s := by
  rw [← Nat.add_sub_cancel' hab, run_add, run_of_queue_nil _ hq]

/-- Two runs from one state that both empty the queue come to the same state. -/
theorem run_eq_run {a b : Nat} (ha : (w.run a s).queue = []) (hb : (w.run b s).queue = []) :
    w.run a s = w.run b s := by
  cases Nat.le_total a b with
  | inl hab => exact (run_eq_of_queue_nil hab ha).symm
  | inr hba => exact run_eq_of_queue_nil hba hb

/-- What each visit keeps, a run keeps. The induction is on the number of visits that are left. -/
theorem run_preserves {P : State σ → Prop}
    (hstep : ∀ {s n rest}, s.queue = n :: rest → P s → P (w.step s)) (bound : Nat) (h : P s) :
    P (w.run bound s) := by
  induction bound generalizing s with
  | zero => exact h
  | succ bound ih =>
    rw [run_succ]
    refine ih ?_
    cases hq : s.queue with
    | nil =>
      rw [step_of_queue_nil hq]
      exact h
    | cons n rest => exact hstep hq h

/-- The last visit of a run. -/
theorem run_succ_eq_step (bound : Nat) (s : State σ) :
    w.run (bound + 1) s = w.step (w.run bound s) := by
  rw [run_add, run_succ]
  rfl

/-! ### Counting visits -/

theorem visits_step {n : Node} {rest : List Node} (hq : s.queue = n :: rest) :
    (w.step s).visits = s.visits + 1 := by
  rcases step_cases (w := w) hq with ⟨-, he⟩ | ⟨k', -, he⟩
  · rw [he]
  · rw [he]

/-- A visit takes one node out of the queue, and is counted. -/
theorem length_add_visits_step {n : Node} {rest : List Node} (hq : s.queue = n :: rest) :
    s.queue.length + s.visits ≤ (w.step s).queue.length + (w.step s).visits := by
  rcases step_cases (w := w) hq with ⟨-, he⟩ | ⟨k', -, he⟩
  · rw [he, hq, List.length_cons]
    dsimp only
    omega
  · have hlen := le_length_foldl_enqueue (w.graph.succs n).toList rest
    rw [he, hq, List.length_cons]
    dsimp only
    omega

/-- So whatever waited at first has been visited once no node waits. -/
theorem length_add_visits_run (bound : Nat) (s : State σ) :
    s.queue.length + s.visits ≤ (w.run bound s).queue.length + (w.run bound s).visits :=
  run_preserves (P := fun s' => s.queue.length + s.visits ≤ s'.queue.length + s'.visits)
    (fun hq h => Nat.le_trans h (length_add_visits_step hq)) bound (Nat.le_refl _)

/-- A run makes no more visits than it is allowed. -/
theorem visits_run_le (bound : Nat) (s : State σ) : (w.run bound s).visits ≤ s.visits + bound := by
  induction bound generalizing s with
  | zero => exact Nat.le_refl _
  | succ bound ih =>
    rw [run_succ]
    have hrest := ih (w.step s)
    cases hq : s.queue with
    | nil =>
      rw [step_of_queue_nil hq] at hrest ⊢
      omega
    | cons n rest =>
      have hthis := visits_step (w := w) hq
      omega

/-- A run that leaves nodes waiting has made all the visits it was allowed. -/
theorem visits_run_of_queue_ne_nil {bound : Nat} (h : (w.run bound s).queue ≠ []) :
    (w.run bound s).visits = s.visits + bound := by
  induction bound generalizing s with
  | zero => rfl
  | succ bound ih =>
    rw [run_succ] at h ⊢
    cases hq : s.queue with
    | nil =>
      rw [step_of_queue_nil hq, run_of_queue_nil _ hq] at h
      exact absurd hq h
    | cons n rest =>
      rw [ih h, visits_step hq]
      omega

/-- The visits that a state has behind it are among those of every run from there. -/
theorem visits_le_visits_run (bound : Nat) (s : State σ) : s.visits ≤ (w.run bound s).visits :=
  run_preserves (P := fun s' => s.visits ≤ s'.visits)
    (fun hq h => by rw [visits_step hq]; omega) bound (Nat.le_refl _)

/-- As long as a node waits, a further visit is made. -/
theorem visits_lt_visits_run {n : Node} {rest : List Node} (hq : s.queue = n :: rest)
    (bound : Nat) : s.visits < (w.run (bound + 1) s).visits := by
  have hthis := visits_step (w := w) hq
  have hrest := visits_le_visits_run (w := w) bound (w.step s)
  rw [run_succ]
  omega

/-- A run that empties its queue takes a certain number of visits: with a bound that allows them it
makes just these, and with a smaller one it stops at the bound, with nodes waiting. -/
theorem run_of_total {large : Nat} (hq : (w.run large s).queue = []) (bound : Nat) :
    ((w.run large s).visits ≤ s.visits + bound → w.run bound s = w.run large s) ∧
      (s.visits + bound < (w.run large s).visits →
        (w.run bound s).queue ≠ [] ∧ (w.run bound s).visits = s.visits + bound) := by
  constructor
  · intro hle
    cases hwait : (w.run bound s).queue with
    | nil => exact run_eq_run hwait hq
    | cons n rest =>
      -- The bound is used up, so the larger one would have led to more visits than it did.
      have hused : (w.run bound s).visits = s.visits + bound :=
        visits_run_of_queue_ne_nil (by simp [hwait])
      rcases Nat.lt_or_ge bound large with hlt | hge
      · obtain ⟨more, hmore⟩ := Nat.exists_eq_add_of_lt hlt
        have hnext := visits_lt_visits_run (w := w) hwait more
        rw [← run_add, ← Nat.add_assoc, ← hmore] at hnext
        omega
      · exact run_eq_of_queue_nil hge hq
  · intro hlt
    have hne : (w.run bound s).queue ≠ [] := by
      intro hnil
      have hle := visits_run_le (w := w) bound s
      rw [run_eq_run hnil hq] at hle
      omega
    exact ⟨hne, visits_run_of_queue_ne_nil hne⟩

/-! ### Knowledge -/

/-- Only nodes of the graph wait. -/
def Inside (w : Worklist σ) (s : State σ) : Prop := ∀ n ∈ s.queue, n ∈ w.graph.nodes

theorem inside_start (k : σ) : w.Inside (w.start k) := fun _ hn => ExtTreeSet.mem_toList.mp hn

theorem Inside.step {n : Node} {rest : List Node} (h : w.Inside s) (hq : s.queue = n :: rest) :
    w.Inside (w.step s) := by
  have hrest : ∀ m ∈ rest, m ∈ w.graph.nodes := by
    intro m hm
    exact h m (by simp [hq, hm])
  intro m hm
  rcases step_cases (w := w) hq with ⟨-, he⟩ | ⟨k', -, he⟩
  · rw [he] at hm
    exact hrest m hm
  · rw [he] at hm
    -- Whatever joins the queue is the end of an edge.
    rcases mem_foldl_enqueue.mp hm with hm | hm
    · exact hrest m hm
    · exact NodeGraph.succs_subset_nodes (ExtTreeSet.mem_toList.mp hm)

/-- Two analyses of one graph whose visits of its nodes do the same run alike. -/
theorem run_congr {w' : Worklist σ} (hgraph : w'.graph = w.graph)
    (hvisit : ∀ n ∈ w.graph.nodes, ∀ k, w'.visit n k = w.visit n k) (hin : w.Inside s)
    (bound : Nat) : w'.run bound s = w.run bound s := by
  induction bound generalizing s with
  | zero => rfl
  | succ bound ih =>
    rw [run_succ, run_succ]
    cases hq : s.queue with
    | nil =>
      rw [step_of_queue_nil hq, step_of_queue_nil hq]
      exact ih hin
    | cons n rest =>
      -- Only nodes of the graph wait, and on these the two visits agree.
      have hstep : w'.step s = w.step s := by
        simp only [step, hq, hgraph, hvisit n (hin n (by simp [hq]))]
      rw [hstep]
      exact ih (hin.step hq)

/-- A property of the knowledge that every visit of a node of the graph keeps. -/
def Keeps (w : Worklist σ) (I : σ → Prop) : Prop :=
  ∀ ⦃n : Node⦄ ⦃k k' : σ⦄, n ∈ w.graph.nodes → I k → w.visit n k = some k' → I k'

theorem Keeps.step {I : σ → Prop} {n : Node} {rest : List Node} (hI : w.Keeps I)
    (hin : w.Inside s) (hq : s.queue = n :: rest) (h : I s.knowledge) :
    I (w.step s).knowledge := by
  rcases step_cases (w := w) hq with ⟨-, he⟩ | ⟨k', hv, he⟩
  · rw [he]
    exact h
  · rw [he]
    exact hI (hin n (by simp [hq])) h hv

/-- What every visit keeps holds of the knowledge after any number of visits. -/
theorem Keeps.knowledge_run {I : σ → Prop} (hI : w.Keeps I) (hk : I k) (bound : Nat) :
    I (w.run bound (w.start k)).knowledge := by
  have hrun : w.Inside (w.run bound (w.start k)) ∧ I (w.run bound (w.start k)).knowledge :=
    run_preserves (P := fun s => w.Inside s ∧ I s.knowledge)
      (fun hq hs => ⟨hs.1.step hq, hI.step hs.1 hq hs.2⟩) bound ⟨inside_start k, hk⟩
  exact hrun.2

/-! ### Settled nodes -/

/-- A property of nodes that a visit establishes unless it calls for another visit of the node, and
that only a visit of a predecessor can undo. -/
structure Settles (w : Worklist σ) (settled : Node → σ → Prop) : Prop where
  /-- A visit that brings nothing new finds the node settled. -/
  found : ∀ {n : Node} {k : σ}, w.visit n k = none → settled n k
  /-- A visit that brings something new settles its node and spares the settled ones, except for the
  successors of the node. -/
  kept : ∀ {n m : Node} {k k' : σ}, w.visit n k = some k' → m ∉ w.graph.succs n →
    m = n ∨ settled m k → settled m k'

namespace Settles

variable {settled : Node → σ → Prop}

/-- The invariant of a run: a node of the graph that is not settled waits. -/
theorem step {n : Node} {rest : List Node} (h : w.Settles settled) (hq : s.queue = n :: rest)
    (hs : ∀ m ∈ w.graph.nodes, m ∉ s.queue → settled m s.knowledge) :
    ∀ m ∈ w.graph.nodes, m ∉ (w.step s).queue → settled m (w.step s).knowledge := by
  intro m hm hnot
  -- A node that does not wait afterwards is the visited one, or did not wait before.
  have hbefore : m ∉ rest → m = n ∨ settled m s.knowledge := by
    intro hrest
    by_cases hmn : m = n
    · exact .inl hmn
    · exact .inr (hs m hm (by simp [hq, hmn, hrest]))
  rcases step_cases (w := w) hq with ⟨hv, he⟩ | ⟨k', hv, he⟩
  · rw [he] at hnot ⊢
    rcases hbefore hnot with rfl | hsettled
    · exact h.found hv
    · exact hsettled
  · rw [he] at hnot ⊢
    simp only [mem_foldl_enqueue, ExtTreeSet.mem_toList, not_or] at hnot
    exact h.kept hv hnot.2 (hbefore hnot.1)

/-- After any number of visits, a node of the graph that does not wait is settled. At first all nodes
wait. -/
theorem run (h : w.Settles settled) (bound : Nat) :
    ∀ n ∈ w.graph.nodes, n ∉ (w.run bound (w.start k)).queue →
      settled n (w.run bound (w.start k)).knowledge :=
  run_preserves (P := fun s => ∀ n ∈ w.graph.nodes, n ∉ s.queue → settled n s.knowledge)
    (fun hq hs => h.step hq hs) bound
    (fun _ hn hnot => absurd (ExtTreeSet.mem_toList.mpr hn) hnot)

/-- When no node waits, every node of the graph is settled. -/
theorem of_queue_nil (h : w.Settles settled) {bound : Nat}
    (hq : (w.run bound (w.start k)).queue = []) :
    ∀ n ∈ w.graph.nodes, settled n (w.run bound (w.start k)).knowledge := by
  intro n hn
  exact h.run bound n hn (by simp [hq])

end Settles

/-! ### Runs that come to an end -/

/-- A measure of progress at each node: a visit that brings something new raises the rank of its
node and lowers no other, and no rank passes a fixed height. The property `I` holds all along. -/
structure Climbs (w : Worklist σ) (I : σ → Prop) (rank : σ → Node → Nat) (height : Nat) : Prop where
  keeps : w.Keeps I
  bounded : ∀ {k : σ} (n : Node), I k → rank k n ≤ height
  rises : ∀ {n : Node} {k k' : σ}, n ∈ w.graph.nodes → I k → w.visit n k = some k' →
    rank k n < rank k' n
  others : ∀ {n m : Node} {k k' : σ}, n ∈ w.graph.nodes → I k → w.visit n k = some k' → m ≠ n →
    rank k m ≤ rank k' m

/-- How often edges can still call for a visit: for each edge, as often as its source can rise. -/
def headroom (w : Worklist σ) (rank : σ → Node → Nat) (height : Nat) (k : σ) : Nat :=
  (w.graph.edges.toList.map fun e => height - rank k e.source).sum

theorem length_succs_le_countP (g : NodeGraph) (n : Node) :
    (g.succs n).toList.length ≤ g.edges.toList.countP (·.source == n) := by
  rw [ExtTreeSet.length_toList, List.countP_eq_length_filter]
  exact Nat.le_trans ExtTreeSet.size_ofList_le (Nat.le_of_eq (List.length_map _))

/-- A sum that falls by one at least for each edge from a node, and rises for no edge. -/
theorem sum_add_countP_le {es : List Edge} {n : Node} {before after : Edge → Nat}
    (hfall : ∀ e, e.source = n → after e + 1 ≤ before e) (hle : ∀ e, after e ≤ before e) :
    (es.map after).sum + es.countP (·.source == n) ≤ (es.map before).sum := by
  induction es with
  | nil => simp
  | cons e es ih =>
    rw [List.map_cons, List.map_cons, List.sum_cons, List.sum_cons, List.countP_cons]
    by_cases he : e.source = n
    · have hthis := hfall e he
      rw [if_pos (by simp [he])]
      omega
    · have hthis := hle e
      rw [if_neg (by simp [he])]
      omega

/-- At first there is at most the whole height for each edge. -/
theorem headroom_le (w : Worklist σ) (rank : σ → Node → Nat) (height : Nat) (k : σ) :
    w.headroom rank height k ≤ w.graph.edges.size * height := by
  unfold headroom
  rw [← ExtTreeSet.length_toList]
  induction w.graph.edges.toList with
  | nil => simp
  | cons e es ih =>
    rw [List.map_cons, List.sum_cons, List.length_cons, Nat.succ_mul]
    omega

namespace Climbs

variable {I : σ → Prop} {rank : σ → Node → Nat} {height : Nat}

/-- A visit that brings something new uses up headroom for each node that it may call for. -/
theorem headroom_visit (h : w.Climbs I rank height) {n : Node} (hn : n ∈ w.graph.nodes) (hk : I k)
    (hv : w.visit n k = some k') :
    w.headroom rank height k' + (w.graph.succs n).toList.length ≤ w.headroom rank height k := by
  have hsuccs := length_succs_le_countP w.graph n
  have hself : rank k n < rank k' n := h.rises hn hk hv
  have htop : rank k' n ≤ height := h.bounded n (h.keeps hn hk hv)
  -- Edges from the node visited lose one at least, and there are as many as successors.
  have hsum : w.headroom rank height k' + w.graph.edges.toList.countP (·.source == n) ≤
      w.headroom rank height k := by
    refine sum_add_countP_le ?_ ?_
    · intro e he
      rw [he]
      omega
    · intro e
      by_cases he : e.source = n
      · rw [he]
        omega
      · have hother : rank k e.source ≤ rank k' e.source := h.others hn hk hv he
        omega
  omega

/-- Every visit takes one from what waits and what edges can still call for. -/
theorem step {n : Node} {rest : List Node} (h : w.Climbs I rank height) (hin : w.Inside s)
    (hk : I s.knowledge) (hq : s.queue = n :: rest) :
    (w.step s).queue.length + w.headroom rank height (w.step s).knowledge + 1 ≤
      s.queue.length + w.headroom rank height s.knowledge := by
  rcases step_cases (w := w) hq with ⟨-, he⟩ | ⟨k', hv, he⟩
  · -- The node leaves the queue, and no rank has changed.
    rw [he, hq, List.length_cons]
    dsimp only
    omega
  · have hroom := h.headroom_visit (hin n (by simp [hq])) hk hv
    have hlen := length_foldl_enqueue_le (w.graph.succs n).toList rest
    rw [he, hq, List.length_cons]
    dsimp only
    omega

/-- With a bound that covers what waits and what edges can still call for, a run empties its
queue. -/
theorem queue_run_of_le (h : w.Climbs I rank height) (hin : w.Inside s) (hk : I s.knowledge)
    {bound : Nat} (hbound : s.queue.length + w.headroom rank height s.knowledge ≤ bound) :
    (w.run bound s).queue = [] := by
  induction bound generalizing s with
  | zero =>
    rw [run]
    exact List.length_eq_zero_iff.mp (by omega)
  | succ bound ih =>
    rw [run_succ]
    cases hq : s.queue with
    | nil =>
      rw [step_of_queue_nil hq, run_of_queue_nil _ hq]
      exact hq
    | cons n rest =>
      have hfall := h.step hin hk hq
      exact ih (hin.step hq) (h.keeps.step hin hq hk) (by omega)

/-- A run from the start empties its queue within one visit for each node, and one more for each
edge each time its source can rise. -/
theorem queue_run (h : w.Climbs I rank height) (hk : I k) {bound : Nat}
    (hbound : w.graph.nodes.size + w.graph.edges.size * height ≤ bound) :
    (w.run bound (w.start k)).queue = [] := by
  refine h.queue_run_of_le (inside_start k) hk ?_
  have hroom := w.headroom_le rank height k
  have hlen : (w.start k).queue.length = w.graph.nodes.size := ExtTreeSet.length_toList
  have hknow : (w.start k).knowledge = k := rfl
  rw [hlen, hknow]
  omega

/-- The visits made, the nodes that wait and what edges can still call for do not add up to more as
a run goes on. -/
theorem visits_run (h : w.Climbs I rank height) (hin : w.Inside s) (hk : I s.knowledge)
    (bound : Nat) :
    (w.run bound s).visits ≤ s.visits + s.queue.length + w.headroom rank height s.knowledge := by
  have hrun := run_preserves
    (P := fun s' => w.Inside s' ∧ I s'.knowledge ∧
      s'.visits + s'.queue.length + w.headroom rank height s'.knowledge ≤
        s.visits + s.queue.length + w.headroom rank height s.knowledge)
    (fun {s' _ _} hq hs' => by
      obtain ⟨hin', hk', hsum⟩ := hs'
      have hfall := h.step hin' hk' hq
      have hone := visits_step (w := w) hq
      exact ⟨hin'.step hq, h.keeps.step hin' hq hk', by omega⟩)
    bound ⟨hin, hk, Nat.le_refl _⟩
  omega

/-- There is a number of visits that a run from the start takes if it is let: one at least for each
node, and at most one more for each edge each time its source can rise. With a bound that allows
them the queue is emptied by just these visits, and with a smaller one the run stops there. -/
theorem exists_total (h : w.Climbs I rank height) (hk : I k) :
    ∃ total, w.graph.nodes.size ≤ total ∧
      total ≤ w.graph.nodes.size + w.graph.edges.size * height ∧
      ∀ bound,
        (total ≤ bound → (w.run bound (w.start k)).queue = [] ∧
          (w.run bound (w.start k)).visits = total) ∧
        (bound < total → (w.run bound (w.start k)).queue ≠ [] ∧
          (w.run bound (w.start k)).visits = bound) := by
  generalize hlarge : w.graph.nodes.size + w.graph.edges.size * height = large
  have hq : (w.run large (w.start k)).queue = [] := h.queue_run hk (Nat.le_of_eq hlarge)
  have hlen : (w.start k).queue.length = w.graph.nodes.size := ExtTreeSet.length_toList
  have hzero : (w.start k).visits = 0 := rfl
  refine ⟨(w.run large (w.start k)).visits, ?_, ?_, fun bound => ?_⟩
  · -- All nodes wait at first, and none does at the end.
    have hlow := length_add_visits_run (w := w) large (w.start k)
    rw [hq, hlen, hzero, List.length_nil] at hlow
    omega
  · -- Each visit was paid for by a node that waited or by headroom.
    have hhigh := h.visits_run (inside_start k) hk large
    have hroom := w.headroom_le rank height k
    have hknow : (w.start k).knowledge = k := rfl
    rw [hlen, hzero, hknow] at hhigh
    omega
  · obtain ⟨henough, hshort⟩ := run_of_total hq bound
    rw [hzero, Nat.zero_add] at henough hshort
    refine ⟨fun hle => ?_, hshort⟩
    rw [henough hle]
    exact ⟨hq, rfl⟩

end Climbs

/-! ### Marks -/

/-- The nodes with a mark are those that wait, and each of them waits once. -/
structure IsMarked (queue : List Node) (marks : NodeSet) : Prop where
  nodup : queue.Nodup
  mem_marks : ∀ n, n ∈ marks ↔ n ∈ queue

namespace IsMarked

variable {queue : List Node} {marks : NodeSet}

/-- A look at the marks finds out what a search of the queue does. -/
theorem fst_mark (h : IsMarked queue marks) (n : Node) :
    (mark (queue, marks) n).1 = enqueue queue n := by
  unfold mark enqueue
  by_cases hn : n ∈ queue
  · rw [if_pos hn, if_pos ((h.mem_marks n).mpr hn)]
  · rw [if_neg hn, if_neg fun hmark => hn ((h.mem_marks n).mp hmark)]

theorem mark (h : IsMarked queue marks) (n : Node) :
    IsMarked (mark (queue, marks) n).1 (mark (queue, marks) n).2 := by
  unfold Worklist.mark
  by_cases hn : n ∈ marks
  · rw [if_pos hn]
    exact h
  · rw [if_neg hn]
    have hqueue : n ∉ queue := fun hq => hn ((h.mem_marks n).mpr hq)
    constructor
    · rw [← List.concat_eq_append]
      exact h.nodup.concat hqueue
    · intro m
      rw [ExtTreeSet.mem_insert, LawfulEqOrd.compare_eq_iff_eq, h.mem_marks, List.mem_append,
        List.mem_singleton, or_comm, eq_comm]

theorem foldl_mark (h : IsMarked queue marks) (ns : List Node) :
    (ns.foldl Worklist.mark (queue, marks)).1 = ns.foldl enqueue queue ∧
      IsMarked (ns.foldl Worklist.mark (queue, marks)).1
        (ns.foldl Worklist.mark (queue, marks)).2 := by
  -- The marks are carried along with the equation: whether the next node joins is read off them.
  induction ns generalizing queue marks with
  | nil => exact ⟨rfl, h⟩
  | cons n ns ih =>
    rw [List.foldl_cons, List.foldl_cons, ← h.fst_mark n]
    exact ih (h.mark n)

/-- The first node waits nowhere else, so it may lose its mark when it leaves. -/
theorem erase {n : Node} {rest : List Node} (h : IsMarked (n :: rest) marks) :
    IsMarked rest (marks.erase n) where
  nodup := h.nodup.tail
  mem_marks m := by
    rw [ExtTreeSet.mem_erase, h.mem_marks, List.mem_cons, Ne, LawfulEqOrd.compare_eq_iff_eq]
    have hn : n ∉ rest := (List.nodup_cons.mp h.nodup).1
    constructor
    · rintro ⟨hne, rfl | hm⟩
      · exact absurd rfl hne
      · exact hm
    · intro hm
      exact ⟨fun heq => hn (heq ▸ hm), .inr hm⟩

end IsMarked

/-- One visit does the same with marks as without, and leaves the marks in order. -/
theorem toState_stepMarked {m : Marked σ} (h : IsMarked m.queue m.marks) :
    (w.stepMarked m).toState = w.step m.toState ∧
      IsMarked (w.stepMarked m).queue (w.stepMarked m).marks := by
  cases hq : m.queue with
  | nil =>
    have hmarked : w.stepMarked m = m := by
      unfold stepMarked
      rw [hq]
    rw [hmarked, step_of_queue_nil hq]
    exact ⟨rfl, h⟩
  | cons n rest =>
    rw [hq] at h
    cases hv : w.visit n m.knowledge with
    | none =>
      have hmarked : w.stepMarked m =
          ⟨⟨rest, m.knowledge, m.visits + 1⟩, m.marks.erase n⟩ := by
        unfold stepMarked
        simp only [hq, hv]
      have hplain : w.step m.toState = ⟨rest, m.knowledge, m.visits + 1⟩ := by
        unfold step
        simp only [hq, hv]
      rw [hmarked, hplain]
      exact ⟨rfl, h.erase⟩
    | some k =>
      obtain ⟨hqueue, hjoined⟩ := h.erase.foldl_mark (w.graph.succs n).toList
      have hmarked : w.stepMarked m =
          ⟨⟨((w.graph.succs n).toList.foldl mark (rest, m.marks.erase n)).1, k, m.visits + 1⟩,
            ((w.graph.succs n).toList.foldl mark (rest, m.marks.erase n)).2⟩ := by
        unfold stepMarked
        simp only [hq, hv]
      have hplain : w.step m.toState =
          ⟨(w.graph.succs n).toList.foldl enqueue rest, k, m.visits + 1⟩ := by
        unfold step
        simp only [hq, hv]
      rw [hmarked, hplain, ← hqueue]
      exact ⟨rfl, hjoined⟩

/-- So does a run. -/
theorem toState_runMarked {m : Marked σ} (h : IsMarked m.queue m.marks) (bound : Nat) :
    (w.runMarked bound m).toState = w.run bound m.toState ∧
      IsMarked (w.runMarked bound m).queue (w.runMarked bound m).marks := by
  induction bound generalizing m with
  | zero => exact ⟨rfl, h⟩
  | succ bound ih =>
    unfold runMarked run
    by_cases hq : m.queue.isEmpty = true
    · rw [if_pos hq, if_pos hq]
      exact ⟨rfl, h⟩
    · rw [if_neg hq, if_neg hq]
      obtain ⟨hstep, hmarks⟩ := toState_stepMarked (w := w) h
      rw [← hstep]
      exact ih hmarks

/-- From the start, a run with marks visits the same nodes and comes to the same knowledge as one that
searches its queue, and at any time the marked nodes are those that wait. -/
theorem runMarked_start (w : Worklist σ) (k : σ) (bound : Nat) :
    (w.runMarked bound (w.startMarked k)).toState = w.run bound (w.start k) ∧
      ∀ n, n ∈ (w.runMarked bound (w.startMarked k)).marks ↔
        n ∈ (w.run bound (w.start k)).queue := by
  have hstart : IsMarked (w.startMarked k).queue (w.startMarked k).marks := by
    refine ⟨FiniteSet.nodup_toList, fun n => ?_⟩
    show n ∈ (ExtTreeSet.ofList w.graph.nodes.toList : NodeSet) ↔ n ∈ w.graph.nodes.toList
    rw [ExtTreeSet.mem_ofList, List.contains_iff_mem]
  obtain ⟨hstate, hmarks⟩ := toState_runMarked (w := w) hstart bound
  refine ⟨hstate, fun n => (hmarks.mem_marks n).trans ?_⟩
  show n ∈ (w.runMarked bound (w.startMarked k)).toState.queue ↔ _
  rw [hstate]
  rfl

end AlarmDischarge.Worklist
