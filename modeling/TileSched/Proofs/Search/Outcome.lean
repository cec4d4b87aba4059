import TileSched.Proofs.Search.Merges
import TileSched.Search.Run
import TileSched.Proofs.Schedule.Solved
/-! The merge search's outcome. The merges it reports replay, one by one, from the unmerged tile
graph to the graph it reports; its solution is one that solving that graph gave; its baseline is
what solving the unmerged graph gives, and the outcome is never worse. No state valued during the
search is worth less than the outcome, but worth is compared as a double, so two objectives that
round to the same double tie and the first one valued is kept. -/

namespace TileSched

open Work Searcher MergeState MergeSearch

section Replay

variable {tg₀ : TileGraph} {setting : SearchSetting} {s : Searcher MergeState MergePoint}

theorem getElem?_frames {n : SearchNode MergeState MergePoint} {i : Nat} (hn : s.nodes[i]? = some n) :
    (s.links.map frame)[i]? = some ⟨n.state.graph, n.state.setting, n.parent, n.action⟩ := by
  simp [hn, frame, SearchNode.link]

theorem replay_path (ht : s.tally.Shaped) (hg : Grown tg₀ setting (s.links.map frame)) :
    ∀ (id : Nat) (n : SearchNode MergeState MergePoint), s.nodes[id]? = some n →
      (s.path id).foldlM TileGraph.merge tg₀ = .ok n.state.graph := by
  intro id
  -- on the node's place: a parent comes first
  induction id using Nat.strong_induction_on with
  | _ id ih =>
    intro n hn
    rw [path_eq ht]
    cases hp : n.parent with
    | none =>
      have hnone : s.tally.parentOf id = none := by simp [SearchTally.parentOf, hn, SearchNode.tally, hp]
      have hid : id = 0 := by
        by_contra hid
        obtain ⟨p, y, hxp, -⟩ := ht.parent id n.tally (by simp [hn]) (Nat.pos_of_ne_zero hid)
        simp [SearchNode.tally, hp] at hxp
      subst hid
      obtain ⟨hroot, haction⟩ := hg.root _ (getElem?_frames hn)
      simp only at hroot haction
      rw [SearchTally.ancestry_of_none hnone]
      simp [hn, haction, hroot]
      rfl
    | some p =>
      have hpar : s.tally.parentOf id = some p := by simp [SearchTally.parentOf, hn, SearchNode.tally, hp]
      obtain ⟨fp, a, hfp, ha, hm⟩ := hg.merged id _ p (getElem?_frames hn) hp
      obtain ⟨np, hnp, rfl⟩ : ∃ np, s.nodes[p]? = some np ∧ frame ⟨np.state, np.parent, np.action⟩ = fp := by
        simpa [SearchNode.link] using hfp
      have hup := ih p (ht.parentOf_lt hpar) np hnp
      rw [path_eq ht] at hup
      rw [ht.ancestry_of_parent hpar, List.reverse_cons, List.filterMap_append, List.foldlM_append, hup]
      simp only [frame] at ha hm
      simp only [List.filterMap_cons, List.filterMap_nil, hn, Option.bind_some, ha, List.foldlM_cons,
        List.foldlM_nil, bind_pure]
      exact hm

end Replay

section Search

variable {root : MergeState} {w w' : Workspace} {sims : List (Nat × Double)} {s : Searcher MergeState MergePoint}

theorem search_from_start (hr : root.rolled = false) (hsol : root.solution = none) {n : Nat} (hn : 0 < n)
    {seed : Nat} {exploration temperature : Float}
    (h : Searching.Runs (search n) ((new root seed).withExploration exploration temperature) w sims s w') :
    Consistent root.graph root.setting s.links sims ∧
      (∀ e, ((solveGraph root.graph root.setting.target root.setting.budget).run.run w).1 = .error e →
        e.isRecoverable = true) ∧
      (∃ r : SearchNode MergeState MergePoint, s.nodes[0]? = some r ∧
        r.state.solution = ((solveGraph root.graph root.setting.target root.setting.budget).run.run w).1.toOption) ∧
      ∃ v rest, sims = (0, v) :: rest := by
  unfold search at h
  obtain ⟨rs, s₁, w₁, hrs, hfin⟩ := Searching.runs_bind.1 h
  obtain ⟨hsims, hs₁, hw₁⟩ := Searching.runs_pure.1 hfin
  subst hsims
  subst s₁ w₁
  obtain ⟨k, rfl⟩ : ∃ k, n = k + 1 := ⟨n - 1, by omega⟩
  rw [List.range_succ_eq_map] at hrs
  obtain ⟨r₀, t, w₂, rs', hfirst, hrest, rfl⟩ := Searching.runs_mapM_cons.1 hrs
  have hc₀ := consistent_new rfl rfl hsol seed exploration temperature
  -- the first iteration values the start
  have hstart : ((new root seed : Searcher MergeState MergePoint).withExploration exploration temperature).nodes[0]? =
      some { state := root, parent := none } := rfl
  obtain ⟨v, st, w₃, hroll, hr₀, ht⟩ := links_iterate_of_fresh hstart rfl rfl hfirst
  obtain ⟨hct, -⟩ := iterate_consistent hc₀ hfirst
  obtain ⟨hcs, hsettles⟩ := iterations_consistent hct hrest
  obtain ⟨hrec, -, hst⟩ := rollOut_of_not_rolled hr hroll
  subst hr₀
  refine ⟨by simpa using hcs, hrec, ?_, v, _, rfl⟩
  -- the start keeps its solution through the later iterations
  have ht₀ : t.links[0]? = some ⟨st, none, none⟩ := by
    rw [ht]
    simp [links, new, withExploration]
  obtain ⟨l, hl, -, -, hk⟩ := hsettles 0 _ ht₀
  obtain ⟨-, hlsol⟩ := hk.rolled (by rw [hst])
  obtain ⟨r, hr', rfl⟩ : ∃ r : SearchNode MergeState MergePoint, s.nodes[0]? = some r ∧ r.link = l := by
    simpa using hl
  refine ⟨r, hr', ?_⟩
  rw [show r.state.solution = r.link.state.solution from rfl, hlsol, hst, hsol, Option.or_none]

end Search

section Read

variable {tg₀ : TileGraph} {setting : SearchSetting} {s : Searcher MergeState MergePoint}
  {sims : List (Nat × Double)} {i : Nat} {n : SearchNode MergeState MergePoint}

theorem getElem?_valuations (hn : s.nodes[i]? = some n) :
    (s.links.map valuation)[i]? = some ⟨n.state.graph, n.state.rolled, n.state.solution⟩ := by
  simp [hn, valuation, SearchNode.link]

theorem worth_of_simulated (hc : Consistent tg₀ setting s.links sims) {d : Double} (hx : (i, d) ∈ sims)
    (hn : s.nodes[i]? = some n) : d = worth n.state.solution := by
  obtain ⟨v, hv, -, hd⟩ := hc.valued.valued _ hx
  rw [getElem?_valuations hn] at hv
  cases hv
  exact hd

theorem simulated_of_solution (hc : Consistent tg₀ setting s.links sims) (hn : s.nodes[i]? = some n)
    {sol : GraphSolution} (hsol : n.state.solution = some sol) : ∃ d, (i, d) ∈ sims :=
  hc.valued.recorded i _ sol (getElem?_valuations hn) hsol

theorem solved_of_solution (hc : Consistent tg₀ setting s.links sims) (hn : s.nodes[i]? = some n)
    {sol : GraphSolution} (hsol : n.state.solution = some sol) :
    ∃ w w', Work.Runs (solveGraph n.state.graph setting.target setting.budget) w sol w' := by
  obtain ⟨w, w', h⟩ := hc.valued.solved i _ sol (getElem?_valuations hn) hsol
  dsimp only at h
  exact ⟨w, w', h⟩

def SolvedIn (s : Searcher MergeState MergePoint) (sol : GraphSolution) : Prop :=
  ∃ (i : Nat) (n : SearchNode MergeState MergePoint), s.nodes[i]? = some n ∧ n.state.solution = some sol

end Read

section Best

variable {tg₀ : TileGraph} {setting : SearchSetting} {s : Searcher MergeState MergePoint}
  {sims : List (Nat × Double)} {best : Nat} {node : SearchNode MergeState MergePoint} {sol : GraphSolution}

theorem bestNode_of_bestNode? (h : s.bestNode? = some best) : s.bestNode = some best := by
  unfold bestNode? at h
  split at h
  · exact h
  · cases h

theorem bestValue_eq_objective (hc : Consistent tg₀ setting s.links sims) (ht : s.tally.Tallies sims)
    (hb : s.bestNode = some best) (hn : s.nodes[best]? = some node) (hsol : node.state.solution = some sol) :
    s.bestValue = Double.ofInt sol.objective := by
  obtain ⟨k, hk, -⟩ := ht.bestNode_first hb
  change sims[k]? = some (best, s.bestValue) at hk
  rw [worth_of_simulated hc (List.mem_of_getElem? hk) hn, hsol]
  rfl

theorem bestValue_le_solved (hc : Consistent tg₀ setting s.links sims) (ht : s.tally.Tallies sims)
    {sol' : GraphSolution} (h : SolvedIn s sol') : s.bestValue ≤ Double.ofInt sol'.objective := by
  obtain ⟨i, n', hn', hsol'⟩ := h
  obtain ⟨d, hd⟩ := simulated_of_solution hc hn' hsol'
  have hle : s.bestValue ≤ d := ht.bestValue_le _ hd
  rw [worth_of_simulated hc hd hn', hsol'] at hle
  exact hle

theorem best_objective_le_first (hc : Consistent tg₀ setting s.links sims) (ht : s.tally.Tallies sims)
    (hb : s.bestNode = some best) (hn : s.nodes[best]? = some node) (hsol : node.state.solution = some sol)
    {v : Double} {rest : List (Nat × Double)} (hsims : sims = (0, v) :: rest)
    {r : SearchNode MergeState MergePoint} {sol₀ : GraphSolution} (hr : s.nodes[0]? = some r)
    (hsol₀ : r.state.solution = some sol₀) : sol.objective ≤ sol₀.objective := by
  obtain ⟨k, hk, hfirst⟩ := ht.bestNode_first hb
  change sims[k]? = some (best, s.bestValue) at hk
  change ∀ j < k, ∀ x : Nat × Double, sims[j]? = some x → s.bestValue < x.2 at hfirst
  have hmem : (0, v) ∈ sims := by
    rw [hsims]
    exact List.mem_cons_self
  have hv : v = Double.ofInt sol₀.objective := by
    rw [worth_of_simulated hc hmem hr, hsol₀]
    rfl
  rcases Nat.eq_zero_or_pos k with rfl | hk₀
  · -- the best node is the start
    rw [hsims] at hk
    simp only [List.getElem?_cons_zero, Option.some.injEq, Prod.mk.injEq] at hk
    obtain ⟨rfl, -⟩ := hk
    rw [hn] at hr
    cases hr
    rw [hsol] at hsol₀
    cases hsol₀
    exact Int.le_refl _
  · have hlt := hfirst 0 hk₀ (0, v) (by rw [hsims]; rfl)
    rw [bestValue_eq_objective hc ht hb hn hsol, hv] at hlt
    exact Int.le_of_lt (Double.lt_of_ofInt_lt hlt)

end Best

section Run

variable {g : Dataflow} {target : Target} {config : SchedulerConfig} {w w' : Workspace}

theorem runs_prepareSearch {setting : SearchSetting} {s₀ : Searcher MergeState MergePoint} {w₀ : Workspace}
    (h : Work.Runs (prepareSearch g target config setting) w s₀ w₀) :
    ∃ tg root, TileGraph.new g target.topLevel = .ok tg ∧ root.graph = tg ∧ root.setting = setting ∧
      root.rolled = false ∧ root.solution = none ∧
      s₀ = (Searcher.new root config.seed).withExploration config.exploration config.temperature ∧
      ∀ budget, (solveUnmerged g target budget).run.run w = (solveGraph tg target budget).run.run w₀ := by
  unfold prepareSearch at h
  obtain ⟨_, w₁, hvalid, h₁⟩ := runs_bind.1 h
  obtain ⟨tg, w₂, hbuild, h₂⟩ := runs_bind.1 h₁
  obtain ⟨_, w₃, hcache, h₃⟩ := runs_bind.1 h₂
  obtain ⟨root, w₄, hstart, h₄⟩ := runs_bind.1 h₃
  obtain ⟨hs₀, hw₀⟩ := runs_pure.1 h₄
  obtain ⟨hs, hg, hr, hsol, hw₄⟩ := runs_start hstart
  subst hs₀ hw₀ hw₄
  refine ⟨tg, root, ?_, hg, hs, hr, hsol, rfl, fun budget => ?_⟩
  · unfold TileGraph.build at hbuild
    obtain ⟨tg', w₅, hnew, hbuild⟩ := runs_bind.1 hbuild
    obtain ⟨_, w₆, -, hbuild⟩ := runs_bind.1 hbuild
    obtain ⟨rfl, -⟩ := runs_pure.1 hbuild
    exact (runs_lift.1 hnew).1
  · -- the same three steps open both
    unfold solveUnmerged
    rw [run_bind_of_runs hvalid, run_bind_of_runs hbuild, run_bind_of_runs hcache]

theorem runs_runSearch {o : ScheduleOutcome} (h : Work.Runs (runSearch g target config) w o w') :
    ∃ (s₀ s : Searcher MergeState MergePoint) (w₀ w₁ : Workspace) (sims : List (Nat × Double))
      (best : Nat) (node : SearchNode MergeState MergePoint) (sol : GraphSolution),
      Work.Runs (prepareSearch g target config ⟨target, config.solverBudget, ⟨config.dumpDir.map FilePath.ofName⟩⟩)
        w s₀ w₀ ∧
      Searching.Runs (search (max config.searchIterations 1)) s₀ w₀ sims s w₁ ∧
      s.bestNode? = some best ∧ s.nodes[best]? = some node ∧ node.state.solution = some sol ∧
      o.graph = node.state.graph ∧ o.solution = sol ∧ o.merges = s.path best ∧
      o.baseline = (s.nodes[0]?.bind (·.state.solution)).map (·.objective) := by
  unfold runSearch at h
  obtain ⟨s₀, w₀, hprep, h₁⟩ := runs_bind.1 h
  obtain ⟨⟨sims, s⟩, w₁, hsearch, h₂⟩ := runs_bind.1 h₁
  obtain ⟨r, w₂, -, h₃⟩ := runs_bind.1 h₂
  -- no best node, no node there or no solution: every way on fails
  split at h₃
  · split at h₃
    · split at h₃
      · rename_i _ best hb _ node hn _ sol hsol
        refine ⟨s₀, s, w₀, w₁, sims, best, node, sol, hprep, hsearch, hb, hn, hsol, ?_⟩
        -- a failed dump of the tree is only recorded
        cases r with
        | error e =>
          obtain ⟨_, w₃, -, h₄⟩ := runs_bind.1 h₃
          obtain ⟨ws, rfl⟩ := runs_get_note_pure h₄
          exact ⟨rfl, rfl, rfl, rfl⟩
        | ok u =>
          obtain ⟨ws, rfl⟩ := runs_get_note_pure h₃
          exact ⟨rfl, rfl, rfl, rfl⟩
      · cases r <;> simp [runs_bind, not_runs_throw] at h₃
    · cases r <;> simp [runs_bind, not_runs_throw] at h₃
  · cases r <;> simp [runs_bind, not_runs_throw] at h₃

def SearchLeaves (g : Dataflow) (target : Target) (config : SchedulerConfig) (w : Workspace)
    (s : Searcher MergeState MergePoint) : Prop :=
  ∃ s₀ w₀ sims w₁,
    Work.Runs (prepareSearch g target config ⟨target, config.solverBudget, ⟨config.dumpDir.map FilePath.ofName⟩⟩)
      w s₀ w₀ ∧
    Searching.Runs (search (max config.searchIterations 1)) s₀ w₀ sims s w₁

/-- What a merge search's outcome `o` from workspace `w` must be. The merges replay from the
unmerged tile graph to the outcome's graph; the solution is one that solving that graph gave, its
objective the saturating sum of its trees'; the baseline is the objective that solving the unmerged
graph from the same workspace gives, present exactly when that solve succeeds, every failure of it
recoverable, and never below the outcome's objective; and the searcher the run leaves holds the
outcome's solution, while no solution it holds is worth less as a double. -/
structure ConsistentOutcome (g : Dataflow) (target : Target) (config : SchedulerConfig) (w : Workspace)
    (o : ScheduleOutcome) : Prop where
  replays : ∃ tg, TileGraph.new g target.topLevel = .ok tg ∧ o.merges.foldlM TileGraph.merge tg = .ok o.graph
  solved : ∃ w₁ w₂, (solveGraph o.graph target config.solverBudget).run.run w₁ = (.ok o.solution, w₂)
  objective : o.solution.objective = (o.solution.trees.map (·.objective)).foldl I64.satAdd 0
  baseline : o.baseline = ((solveUnmerged g target config.solverBudget).run.run w).1.toOption.map (·.objective)
  recoverable : ∀ e, ((solveUnmerged g target config.solverBudget).run.run w).1 = .error e →
    e.isRecoverable = true
  le_baseline : ∀ b, o.baseline = some b → o.solution.objective ≤ b
  least : ∀ s, SearchLeaves g target config w s → SolvedIn s o.solution ∧
    ∀ sol, SolvedIn s sol → Double.ofInt o.solution.objective ≤ Double.ofInt sol.objective

/-- Every outcome a merge search gives is consistent. -/
theorem runSearch_consistent {o : ScheduleOutcome} (h : ((runSearch g target config).run.run w).1 = .ok o) :
    ConsistentOutcome g target config w o := by
  have hrun : Work.Runs (runSearch g target config) w o ((runSearch g target config).run.run w).2 := by
    rw [Work.Runs, ← h]
    exact Prod.mk.eta.symm
  obtain ⟨s₀, s, w₀, w₁, sims, best, node, sol, hprep, hsearch, hb, hn, hsol, hgraph, hsolution, hmerges,
    hbaseline⟩ := runs_runSearch hrun
  obtain ⟨tg, root, hnew, hg, hset, hr, hrsol, hs₀, hunmerged⟩ := runs_prepareSearch hprep
  subst hs₀
  obtain ⟨hc, hrec, ⟨r, hr₀, hrs⟩, v, rest, hsims⟩ := search_from_start hr hrsol (by omega) hsearch
  rw [hg, hset] at hc hrec hrs
  dsimp only at hrec hrs
  -- the tallies of the search: its shape and its best value
  obtain ⟨rs, hiter, hrs'⟩ := runs_search MergeState.rollOutsAreNumbers (by rw [tally_new]; exact SearchTally.init_shaped)
    hsearch
  rw [tally_new] at hiter
  obtain ⟨hshaped, htallies⟩ := hiter.invariant SearchTally.init_shaped SearchTally.init_tallies
  rw [List.nil_append, ← hrs'] at htallies
  have hbest := bestNode_of_bestNode? hb
  -- the outcome, read off the best node
  obtain ⟨graph, solution, merges, baseline, rollouts, shapes⟩ := o
  simp only at hgraph hsolution hmerges hbaseline
  subst hgraph hsolution hmerges hbaseline
  obtain ⟨wa, wb, hsolved⟩ := solved_of_solution hc hn hsol
  dsimp only at hsolved
  refine ⟨⟨tg, hnew, ?_⟩, ⟨wa, wb, hsolved⟩, solveGraph_objective hsolved, ?_, ?_, ?_, ?_⟩
  · exact replay_path hshaped hc.grown best node hn
  · simp only
    rw [hr₀, Option.bind_some, hrs, hunmerged]
  · intro e he
    rw [hunmerged] at he
    exact hrec e he
  · intro b hbase
    simp only at hbase
    rw [hr₀, Option.bind_some, Option.map_eq_some_iff] at hbase
    obtain ⟨sol₀, hsol₀, rfl⟩ := hbase
    exact best_objective_le_first hc htallies hbest hn hsol hsims hr₀ hsol₀
  · -- the search is deterministic: the searcher any run leaves is this one
    rintro s' ⟨s₀', w₀', sims', w₁', hprep', hsearch'⟩
    obtain ⟨rfl, rfl⟩ := hprep.determ hprep'
    obtain ⟨-, rfl, -⟩ := hsearch.determ hsearch'
    refine ⟨⟨best, node, hn, hsol⟩, fun sol' hsol' => ?_⟩
    rw [← bestValue_eq_objective hc htallies hbest hn hsol]
    exact bestValue_le_solved hc htallies hsol'

end Run

section Examples

/-! Outcomes compare by value, so a run on a fixed input is checked by evaluation. -/

deriving instance DecidableEq for Error, GraphSolution, TileGraph, ScheduleOutcome

def scratchpadTarget : Target := { levels := [⟨"L1", some 64, 1⟩, ⟨"DDR", none, 4⟩] }

def unitPair : Dataflow :=
  let (g, a) := Dataflow.addElementwise { name := "pair" } "op0" [1] []
  (g.addElementwise "op1" [1] [some a]).1

def outerOnly : Target := { levels := [⟨"DDR", none, 1⟩] }

theorem unitPair_runSearch : ((runSearch unitPair outerOnly { searchIterations := 2 }).run.run {}).1.toOption.map
    (fun o => (o.merges, o.solution.objective, o.baseline)) = some ([⟨0, 1, 1⟩], 8, some 12) := by
  -- unfolded down to the solver's search, which then sorts by insertion and evaluates
  delta runSearch prepareSearch Searcher.search Searcher.iterate Searcher.simulate
    MergeState.instEnvironmentStateMergePoint MergeState.rollOut solveGraph Tiler.solveCached Tiler.solve
    Tiler.solveTiled Tiler.solveSingle Tiler.minimize Model.minimizeLogged Model.explore
  rw [Model.search_fun_eq]
  decide +kernel

/-- Two iterations over an operation over one element and its consumer, in one unbounded memory:
the first values the unmerged graph, the second merges the producer into the consumer, which
lowers the objective from the baseline 12 to 8. -/
theorem unitPair_outcome_consistent :
    ∃ o, ((runSearch unitPair outerOnly { searchIterations := 2 }).run.run {}).1 = .ok o ∧
      o.merges = [⟨0, 1, 1⟩] ∧ o.solution.objective = 8 ∧ o.baseline = some 12 ∧
      ConsistentOutcome unitPair outerOnly { searchIterations := 2 } {} o := by
  have h := unitPair_runSearch
  cases hrun : ((runSearch unitPair outerOnly { searchIterations := 2 }).run.run {}).1 with
  | error e => simp [hrun, Except.toOption] at h
  | ok o =>
    simp only [hrun, Except.toOption, Option.map_some, Option.some.injEq, Prod.mk.injEq] at h
    exact ⟨o, rfl, h.1, h.2.1, h.2.2, runSearch_consistent hrun⟩

def solvedAt (o : Int) : MergeState where
  setting := default
  graph := default
  path := ""
  mergePoints := []
  untried := []
  rolled := true
  solution := some ⟨[], o⟩

/-- A search whose start, valued at `2^61 + 1024`, is its best node, with a child not yet valued
whose state holds a solution of objective `2^61 + 768`. Doubles are `2^9` apart there, and the
child's objective, halfway between two of them, rounds to the even one: the start's. -/
def tiedSearch : Searcher MergeState MergePoint where
  nodes := #[⟨solvedAt (2 ^ 61 + 1024), none, [1], none, .ofInt (2 ^ 61 + 1024), 1⟩,
    ⟨solvedAt (2 ^ 61 + 768), some 0, [], some ⟨0, 1, 1⟩, .infinity, 0⟩]
  rng := Rng.seeded 1010
  bestValue := .ofInt (2 ^ 61 + 1024)
  bestNode := some 0
  rollouts := 1

/-- Valuing the child keeps the start as the best node, although the child's objective is lower:
the best node need not hold the least objective valued. -/
theorem simulate_keeps_first_of_tie :
    (((simulate 1 : Searching MergeState MergePoint Double).run tiedSearch).run.run {}).1.toOption.map
      (fun r => (r.2.bestNode, r.2.nodes.toList.map fun n => n.state.solution.map (·.objective))) =
    some (some 0, [some (2 ^ 61 + 1024), some (2 ^ 61 + 768)]) := by
  decide +kernel

end Examples

end TileSched
