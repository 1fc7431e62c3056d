import AlarmDischarge.DefUse.Reaching
import AlarmDischarge.Proofs.Worklist

/-!
# `AlarmDischarge.Proofs.DefUse.Reaching`: the run that finds definitions

The run (`reaching_out`) has no cap of its own: it goes on until no node waits. Its bound
`visitBound` is shown to be large enough, so that what it ends with solves the equations of the
analysis:

* `climbs`: a useful visit stores a first set at its node or a larger one, inside the finite set of
  all definitions;
* `queue_run_visitBound`: so the queue is empty within the bound;
* `getElem?_exits`: so after each node those definitions are alive that are alive before it and not
  stopped by it, and its own;
* `reaching_run_ends_in_fixpoint`: the same with the number of visits that the run takes, and with
  what holds on the way: sets of definitions of the program that only grow.
-/

set_option autoImplicit false

namespace AlarmDischarge.Reaching

open Std

variable {v : Program.View} {exits exits' : Exits} {before before' : Definitions} {m n : Node}
  {d : Definition}

/-! ### One visit -/

/-- The definitions that a node makes: of the variables that its command defines, at the node. -/
theorem mem_generated :
    d ∈ generated v n ↔ d.node = n ∧ ∃ c, v.commandAt n = some c ∧ d.name ∈ c.defs := by
  unfold generated
  cases hc : v.commandAt n with
  | none => simp
  | some c =>
    simp only [ExtTreeSet.mem_ofList, List.contains_iff_mem, List.mem_map, ExtTreeSet.mem_toList,
      Option.some.injEq, exists_eq_left']
    constructor
    · rintro ⟨x, hx, rfl⟩
      exact ⟨rfl, hx⟩
    · rintro ⟨rfl, hx⟩
      exact ⟨d.name, hx, rfl⟩

theorem mem_entry : d ∈ entry v exits n ↔ ∃ p, ⟨p, n⟩ ∈ v.flow.edges ∧ d ∈ exits.getD p ∅ := by
  unfold entry
  simp only [FiniteSet.mem_union, ExtTreeSet.mem_toList, NodeGraph.mem_preds]

/-- What is alive after a node: what was alive before and is not stopped, and what the node makes. -/
theorem mem_transfer :
    d ∈ transfer v n before ↔ d ∈ before ∧ killed v n d.name = false ∨ d ∈ generated v n := by
  unfold transfer
  rw [ExtTreeSet.mem_union_iff, FiniteSet.mem_filter, Bool.not_eq_true']

theorem transfer_mono (h : ∀ d ∈ before, d ∈ before') (hd : d ∈ transfer v n before) :
    d ∈ transfer v n before' := by
  rcases mem_transfer.mp hd with ⟨hbefore, hkill⟩ | hgen
  · exact mem_transfer.mpr (.inl ⟨h d hbefore, hkill⟩)
  · exact mem_transfer.mpr (.inr hgen)

theorem visit_eq_none_iff :
    visit v n exits = none ↔ exits[n]? = some (transfer v n (entry v exits n)) := by
  simp only [visit]
  split
  · simp [*]
  · simp [*]

/-- A visit that brings something new found something other than what its node had. -/
theorem ne_of_visit (h : visit v n exits = some exits') :
    exits[n]? ≠ some (transfer v n (entry v exits n)) := by
  intro hsame
  rw [visit_eq_none_iff.mpr hsame] at h
  cases h

/-- A visit that brings something new puts what it finds in the place of what its node had. -/
theorem getElem?_of_visit (h : visit v n exits = some exits') :
    exits'[m]? = if m = n then some (transfer v n (entry v exits n)) else exits[m]? := by
  simp only [visit] at h
  split at h
  · cases h
  · rw [← Option.some.inj h, FiniteSet.getElem?_insert_eq_ite]

theorem mem_getD : d ∈ exits.getD n ∅ ↔ ∃ after, exits[n]? = some after ∧ d ∈ after := by
  rw [ExtTreeMap.getD_eq_getD_getElem?]
  cases exits[n]? with
  | none => simp
  | some after => simp

/-- At first nothing is stored. -/
theorem not_mem_getD_empty : d ∉ (∅ : Exits).getD n ∅ := by
  rw [ExtTreeMap.getD_empty]
  exact ExtTreeSet.not_mem_empty

/-- After a visit its node has what the visit finds, and every other node what it had. -/
theorem mem_getD_of_visit (h : visit v n exits = some exits') :
    d ∈ exits'.getD m ∅ ↔
      m = n ∧ d ∈ transfer v n (entry v exits n) ∨ m ≠ n ∧ d ∈ exits.getD m ∅ := by
  rw [mem_getD, getElem?_of_visit h]
  by_cases hm : m = n
  · simp [hm]
  · rw [if_neg hm, ← mem_getD]
    simp [hm]

/-! ### Sets that only grow -/

/-- What is stored would be found again by a visit. A visit replaces the set of its node, so that
this is what makes the sets grow. -/
def Sustained (v : Program.View) (exits : Exits) : Prop :=
  ∀ n, ∀ d ∈ exits.getD n ∅, d ∈ transfer v n (entry v exits n)

/-- A visit of a sustained table takes no definition away. -/
theorem Sustained.mem_of_visit (h : Sustained v exits) (hv : visit v n exits = some exits')
    (hd : d ∈ exits.getD m ∅) : d ∈ exits'.getD m ∅ := by
  rw [mem_getD_of_visit hv]
  by_cases hm : m = n
  · subst hm
    exact .inl ⟨rfl, h m d hd⟩
  · exact .inr ⟨hm, hd⟩

theorem Sustained.mem_transfer_of_visit (h : Sustained v exits)
    (hv : visit v n exits = some exits') (hd : d ∈ transfer v m (entry v exits m)) :
    d ∈ transfer v m (entry v exits' m) := by
  refine transfer_mono ?_ hd
  intro d hd
  obtain ⟨p, hedge, hp⟩ := mem_entry.mp hd
  exact mem_entry.mpr ⟨p, hedge, h.mem_of_visit hv hp⟩

theorem keeps_sustained : (worklist v).Keeps (Sustained v) := by
  intro n exits exits' _ h hv m d hd
  -- What is stored afterwards was found before the visit, and a visit then finds more, not less.
  refine h.mem_transfer_of_visit hv ?_
  rcases (mem_getD_of_visit hv).mp hd with ⟨rfl, hd⟩ | ⟨-, hd⟩
  · exact hd
  · exact h m d hd

/-- Only definitions of the program are stored. -/
def Within (v : Program.View) (exits : Exits) : Prop :=
  ∀ n, ∀ d ∈ exits.getD n ∅, d ∈ definitions v

theorem Within.mem_of_mem_transfer (h : Within v exits) (hn : n ∈ v.flow.nodes)
    (hd : d ∈ transfer v n (entry v exits n)) : d ∈ definitions v := by
  rcases mem_transfer.mp hd with ⟨hbefore, -⟩ | hgen
  · obtain ⟨p, -, hp⟩ := mem_entry.mp hbefore
    exact h p d hp
  · exact FiniteSet.mem_union.mpr ⟨n, ExtTreeSet.mem_toList.mpr hn, hgen⟩

theorem keeps_within : (worklist v).Keeps (Within v) := by
  intro n exits exits' hn h hv m d hd
  rcases (mem_getD_of_visit hv).mp hd with ⟨rfl, hd⟩ | ⟨-, hd⟩
  · exact h.mem_of_mem_transfer hn hd
  · exact h m d hd

/-! ### The end of the run -/

/-- How far a node has come: nothing stored, or a set of some size. The empty set counts for more
than nothing, since a first visit stores its set even if it is empty. -/
def rank (exits : Exits) (n : Node) : Nat := (exits[n]?.map fun after => after.size + 1).getD 0

theorem rank_eq_of_getElem?_eq (h : exits'[n]? = exits[n]?) : rank exits' n = rank exits n := by
  unfold rank
  rw [h]

theorem rank_of_getElem?_eq_some {after : Definitions} (h : exits[n]? = some after) :
    rank exits n = after.size + 1 := by
  unfold rank
  rw [h]
  rfl

/-- No set is larger than the set of all definitions. -/
theorem Within.rank_le (h : Within v exits) (n : Node) :
    rank exits n ≤ (definitions v).size + 1 := by
  cases hn : exits[n]? with
  | none =>
    unfold rank
    rw [hn]
    exact Nat.zero_le _
  | some after =>
    rw [rank_of_getElem?_eq_some hn]
    refine Nat.succ_le_succ (FiniteSet.size_le_of_subset fun d hd => ?_)
    exact h n d (mem_getD.mpr ⟨after, hn, hd⟩)

/-- A visit that brings something new stores a first set, or a set that has all the definitions that
the node had and is not the same. -/
theorem Sustained.rank_lt (h : Sustained v exits) (hv : visit v n exits = some exits') :
    rank exits n < rank exits' n := by
  have hnew : exits'[n]? = some (transfer v n (entry v exits n)) := by
    rw [getElem?_of_visit hv, if_pos rfl]
  rw [rank_of_getElem?_eq_some hnew]
  cases hold : exits[n]? with
  | none =>
    unfold rank
    rw [hold]
    exact Nat.succ_pos _
  | some after =>
    rw [rank_of_getElem?_eq_some hold]
    refine Nat.succ_lt_succ (FiniteSet.size_lt_of_subset_of_ne (fun d hd => ?_) ?_)
    · exact h n d (mem_getD.mpr ⟨after, hold, hd⟩)
    · rintro rfl
      exact ne_of_visit hv hold

theorem climbs : (worklist v).Climbs (fun exits => Sustained v exits ∧ Within v exits) rank
    ((definitions v).size + 1) where
  keeps _ _ _ hn h hv := ⟨keeps_sustained hn h.1 hv, keeps_within hn h.2 hv⟩
  bounded n h := h.2.rank_le n
  rises _ h hv := h.1.rank_lt hv
  others {n m exits exits'} _ _ hv hm := by
    have hsame : exits'[m]? = exits[m]? := by rw [getElem?_of_visit hv, if_neg hm]
    exact Nat.le_of_eq (rank_eq_of_getElem?_eq hsame).symm

theorem sustained_and_within_empty : Sustained v ∅ ∧ Within v ∅ :=
  ⟨fun _ _ hd => absurd hd not_mem_getD_empty, fun _ _ hd => absurd hd not_mem_getD_empty⟩

/-- The bound on the number of visits is large enough: no node waits in the end. -/
theorem queue_run_visitBound :
    ((worklist v).run (visitBound v) ((worklist v).start ∅)).queue = [] :=
  climbs.queue_run sustained_and_within_empty (Nat.le_refl _)

/-- A visit brings its node up to date, and only a visit of a predecessor can make it lag. -/
theorem settles :
    (worklist v).Settles fun n exits => exits[n]? = some (transfer v n (entry v exits n)) where
  found h := visit_eq_none_iff.mp h
  kept {n m exits exits'} hv hsucc hm := by
    -- The node visited is no predecessor of `m`, so that the same is alive before `m` as it was.
    have hsame : entry v exits' m = entry v exits m := by
      refine ExtTreeSet.ext_mem fun {d} => ?_
      rw [mem_entry, mem_entry]
      refine exists_congr fun p => and_congr_right fun hedge => ?_
      have hp : p ≠ n := by
        rintro rfl
        exact hsucc (NodeGraph.mem_succs.mpr hedge)
      rw [mem_getD_of_visit hv]
      simp [hp]
    rw [hsame, getElem?_of_visit hv]
    rcases hm with rfl | hm
    · rw [if_pos rfl]
    · by_cases hmn : m = n
      · rw [if_pos hmn, hmn]
      · rw [if_neg hmn, hm]

/-- In the end each node has exactly what is alive before it and not stopped there, and its own
definitions. -/
theorem getElem?_exits (hn : n ∈ v.flow.nodes) :
    (Reaching.exits v)[n]? = some (transfer v n (entry v (Reaching.exits v) n)) :=
  settles.of_queue_nil queue_run_visitBound n hn

/-! ### The run visit by visit -/

/-- The definitions found alive after each node once a number of nodes have been visited. -/
def exitsAfter (v : Program.View) (visits : Nat) : Exits :=
  ((worklist v).run visits ((worklist v).start ∅)).knowledge

/-- All along the run what is stored would be found again, and is a definition of the program. -/
theorem sustained_and_within_exitsAfter (visits : Nat) :
    Sustained v (exitsAfter v visits) ∧ Within v (exitsAfter v visits) :=
  climbs.keeps.knowledge_run sustained_and_within_empty visits

/-- The definitions of a program are the pairs of a node of it and a variable that its command
defines. -/
theorem mem_definitions :
    d ∈ definitions v ↔
      d.node ∈ v.flow.nodes ∧ ∃ c, v.commandAt d.node = some c ∧ d.name ∈ c.defs := by
  unfold definitions
  simp only [FiniteSet.mem_union, ExtTreeSet.mem_toList, mem_generated]
  constructor
  · rintro ⟨n, hn, rfl, hc⟩
    exact ⟨hn, hc⟩
  · rintro ⟨hn, hc⟩
    exact ⟨d.node, hn, rfl, hc⟩

/-- One more visit leaves a set in the place of each set, with at least the same definitions. -/
theorem exitsAfter_succ_grows {visits : Nat} {before : Definitions}
    (h : (exitsAfter v visits)[n]? = some before) :
    ∃ after, (exitsAfter v (visits + 1))[n]? = some after ∧ ∀ d ∈ before, d ∈ after := by
  generalize hs : (worklist v).run visits ((worklist v).start ∅) = s
  have hnow : exitsAfter v visits = s.knowledge := congrArg Worklist.State.knowledge hs
  have hnext : exitsAfter v (visits + 1) = ((worklist v).step s).knowledge := by
    unfold exitsAfter
    rw [Worklist.run_succ_eq_step, hs]
  have hsustained := (sustained_and_within_exitsAfter (v := v) visits).1
  rw [hnow] at h hsustained
  rw [hnext]
  cases hq : s.queue with
  | nil =>
    rw [Worklist.step_of_queue_nil hq]
    exact ⟨before, h, fun _ hd => hd⟩
  | cons m rest =>
    rcases Worklist.step_cases (w := worklist v) hq with ⟨-, he⟩ | ⟨exits', hv, he⟩
    · rw [he]
      exact ⟨before, h, fun _ hd => hd⟩
    · rw [he]
      -- The set of the visited node is replaced, by one in which everything is found again.
      have hget := getElem?_of_visit (m := n) hv
      by_cases hnm : n = m
      · subst hnm
        rw [if_pos rfl] at hget
        refine ⟨_, hget, fun d hd => ?_⟩
        exact hsustained n d (mem_getD.mpr ⟨before, h, hd⟩)
      · rw [if_neg hnm, h] at hget
        exact ⟨before, hget, fun _ hd => hd⟩

/-- So no set loses a definition as the run goes on. The induction is on the visits in between. -/
theorem exitsAfter_grows {earlier later : Nat} (hle : earlier ≤ later) {before : Definitions}
    (h : (exitsAfter v earlier)[n]? = some before) :
    ∃ after, (exitsAfter v later)[n]? = some after ∧ ∀ d ∈ before, d ∈ after := by
  induction hle with
  | refl => exact ⟨before, h, fun _ hd => hd⟩
  | step _ ih =>
    obtain ⟨middle, hmiddle, hsub⟩ := ih
    obtain ⟨after, hafter, hsub'⟩ := exitsAfter_succ_grows hmiddle
    exact ⟨after, hafter, fun d hd => hsub' d (hsub d hd)⟩

/-- The run comes to an end by itself. It takes a certain number of visits, one at least for each node
and no more than the nodes, plus for each edge of control flow one more than there are definitions:
before that number of visits nodes wait, and from then on none does. On the way the set stored for a
node only grows, also where a visit replaces it, and holds nothing but definitions of the program, of
a variable at a node whose command defines it. At the end each node has its own definitions and those
that are alive before it and not stopped there. -/
theorem reaching_run_ends_in_fixpoint (v : Program.View) :
    (∀ d, d ∈ definitions v ↔
      d.node ∈ v.flow.nodes ∧ ∃ c, v.commandAt d.node = some c ∧ d.name ∈ c.defs) ∧
    (∀ (earlier later : Nat) (n : Node) (before : Definitions), earlier ≤ later →
      (exitsAfter v earlier)[n]? = some before →
        ∃ after, (exitsAfter v later)[n]? = some after ∧ ∀ d ∈ before, d ∈ after) ∧
    (∀ visits n, ∀ d ∈ (exitsAfter v visits).getD n ∅, d ∈ definitions v) ∧
    ∃ total, v.flow.nodes.size ≤ total ∧
      total ≤ v.flow.nodes.size + v.flow.edges.size * ((definitions v).size + 1) ∧
      (∀ visits, ((worklist v).run visits ((worklist v).start ∅)).queue = [] ↔ total ≤ visits) ∧
      exitsAfter v total = Reaching.exits v ∧
      ∀ n ∈ v.flow.nodes, (Reaching.exits v)[n]? =
        some (generated v n ∪
          (entry v (Reaching.exits v) n).filter fun d => !killed v n d.name) := by
  refine ⟨fun d => mem_definitions, fun _ _ _ _ hle h => exitsAfter_grows hle h, ?_, ?_⟩
  · intro visits
    exact (sustained_and_within_exitsAfter visits).2
  · obtain ⟨total, hlow, hhigh, htotal⟩ :=
      (climbs (v := v)).exists_total sustained_and_within_empty
    refine ⟨total, hlow, hhigh, ?_, ?_, ?_⟩
    · intro visits
      constructor
      · intro hq
        exact Nat.le_of_not_lt fun hlt => ((htotal visits).2 hlt).1 hq
      · intro hle
        exact ((htotal visits).1 hle).1
    · -- The analysis is given a bound that allows all visits, and stops when none is left to make.
      have hq := ((htotal total).1 (Nat.le_refl _)).1
      exact congrArg Worklist.State.knowledge (Worklist.run_eq_run hq queue_run_visitBound)
    · intro n hn
      rw [getElem?_exits hn]
      refine congrArg some (ExtTreeSet.ext_mem fun {d} => ?_)
      show d ∈ transfer v n _ ↔ _
      rw [transfer, ExtTreeSet.mem_union_iff, ExtTreeSet.mem_union_iff]
      exact or_comm

/-- `i := 0`, and then over and over `assume(i < n)` and `i := i + 1`. -/
def incrementLoop : Program :=
  let point (i : UInt64) : Node := ⟨"main", i⟩
  Program.empty
    |>.addCommand (point 0) (.assign (.var (.localInt "i")) (.int 0))
    |>.addCommand (point 1) (.assume (.binary .lt (.var (.localInt "i")) (.var (.localInt "n"))))
    |>.addCommand (point 2) (.assign (.var (.localInt "i"))
      (.binary .add (.var (.localInt "i")) (.int 1)))
    |>.addPath [point 0, point 1, point 2, point 1]

/-- In the loop two visits find three definitions alive after the assumption, and when the run is over
the one that comes round with the loop is alive there too. The run takes 18 visits at most. -/
theorem run_incrementLoop :
    let v := incrementLoop.view
    let test : Node := ⟨"main", 1⟩
    (∃ before : Definitions, (exitsAfter v 2)[test]? = some before ∧ before.size = 3 ∧
      ∃ after, (exitsAfter v 18)[test]? = some after ∧ ∀ d ∈ before, d ∈ after) ∧
    (⟨"i", ⟨"main", 2⟩⟩ ∈ (exitsAfter v 18).getD test ∅ ∧
      ⟨"i", ⟨"main", 2⟩⟩ ∈ definitions v) ∧
    ∃ total, 3 ≤ total ∧ total ≤ 18 ∧
      ∀ visits, ((worklist v).run visits ((worklist v).start ∅)).queue = [] ↔ total ≤ visits := by
  intro v test
  obtain ⟨-, hgrows, hwithin, total, hlow, hhigh, hqueue, -⟩ := reaching_run_ends_in_fixpoint v
  have hsizes : v.flow.nodes.size = 3 ∧ v.flow.edges.size = 3 ∧ (definitions v).size = 4 := by
    decide +kernel
  rw [hsizes.1] at hlow hhigh
  rw [hsizes.2.1, hsizes.2.2] at hhigh
  refine ⟨?_, ?_, total, hlow, hhigh, hqueue⟩
  · obtain ⟨before, hbefore⟩ : ∃ before, (exitsAfter v 2)[test]? = some before :=
      Option.isSome_iff_exists.mp (by decide +kernel)
    have hsize : (exitsAfter v 2)[test]?.map ExtTreeSet.size = some 3 := by decide +kernel
    rw [hbefore] at hsize
    exact ⟨before, hbefore, Option.some.inj hsize, hgrows 2 18 test before (by decide) hbefore⟩
  · have hround : ⟨"i", ⟨"main", 2⟩⟩ ∈ (exitsAfter v 18).getD test ∅ := by decide +kernel
    exact ⟨hround, hwithin 18 test _ hround⟩

end AlarmDischarge.Reaching
