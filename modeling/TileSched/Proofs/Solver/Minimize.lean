import TileSched.Proofs.Solver.Search
/-! What `minimize` answers for a built model whose intervals are never clamped. The search starts
at the root with every decision pending, so its run lemma applies to the whole search: the best
value it reports is a solution's, it keeps to its node limit, and unless that limit is reached
no solution has a smaller objective. The answers read off the final state. -/

namespace TileSched

namespace Model

variable {m : Model} {objective : Nat} {budget : Budget}

def searchStart (m : Model) : SearchState :=
  { nodes := 0, exhausted := false, best := none, assignment := Array.replicate m.vars.size none }

theorem linearBackward_of_forwardReference (h : m.forwardReference? = none) : m.LinearBackward := by
  intro i ts c hnode t ht
  have hmem : (Node.linear ts c, i) ∈ m.nodes.toList.zipIdx := by
    rw [List.mem_zipIdx_iff_getElem?]
    simpa using hnode
  have hnone := List.findSome?_eq_none_iff.1 h _ hmem
  simp only [Option.map_eq_none_iff, List.find?_eq_none] at hnone
  have := hnone t ht
  simp only [decide_eq_true_eq] at this
  omega

theorem explore_eq_ok {st : SearchState} (h : m.explore objective budget = .ok st) :
    objective < m.nodes.size ∧ ∃ split, m.splitObjective objective = .ok split ∧
      (0 < budget.effectiveNodeLimit → m.forwardReference? = none) ∧
      m.search budget.effectiveNodeLimit objective split m.decisions m.searchStart = .ok st := by
  dsimp only [explore] at h
  split at h
  · obtain ⟨_, hthrow, -⟩ := bind_eq_ok.1 h
    cases hthrow
  obtain ⟨split, hsplit, h⟩ := bind_eq_ok.1 h
  replace h := mapError_eq_ok.1 h
  refine ⟨by omega, split, mapError_eq_ok.1 hsplit, fun hpos => ?_, ?_⟩
  · rw [if_pos hpos] at h
    cases hf : m.forwardReference? with
    | none => rfl
    | some f =>
      rw [hf] at h
      obtain ⟨_, hthrow, -⟩ := bind_eq_ok.1 h
      cases hthrow
  · -- past the check for forward references the search itself runs
    split at h
    · split at h
      · obtain ⟨_, hthrow, -⟩ := bind_eq_ok.1 h
        cases hthrow
      · exact h
    · exact h

theorem explore_eq_error {e : SolveError} (h : m.explore objective budget = .error e) :
    (∃ r, e = .invalidModel r) ∨ ∃ f, e = .fault f := by
  dsimp only [explore] at h
  split at h
  · rcases bind_eq_error.1 h with h | ⟨_, h, -⟩
    · cases h
      exact .inl ⟨_, rfl⟩
    · cases h
  rcases bind_eq_error.1 h with h | ⟨_, -, h⟩
  · obtain ⟨f, -, rfl⟩ := mapError_eq_error.1 h
    exact .inr ⟨f, rfl⟩
  · obtain ⟨f, -, rfl⟩ := mapError_eq_error.1 h
    exact .inr ⟨f, rfl⟩

theorem search_spent {limit : Nat} {split : ObjectiveSplit} {ds : List Decision} {st : SearchState}
    (hex : st.exhausted = false) (hn : limit ≤ st.nodes) :
    m.search limit objective split ds st = .ok { st with exhausted := true } := by
  rw [search_eq, if_neg (by simp [hex]), if_pos hn]
  rfl

/-- What a finished search holds: every best value it records is a solution's, it kept to its
node limit, and it covers the objective of every solution. -/
structure Explored (m : Model) (objective limit : Nat) (st : SearchState) : Prop where
  recorded : ∀ p ∈ st.best, m.Recorded objective p
  budget : Budgeted limit st
  covers : ∀ val, m.Satisfies val → Covers st (val objective)

theorem explore_explored (hb : m.Built) (hu : m.Unclamped) {st : SearchState}
    (h : m.explore objective budget = .ok st) : m.Explored objective budget.effectiveNodeLimit st := by
  have hm := hb.wellFormed
  obtain ⟨hobj, split, hsplit, hfwd, hsearch⟩ := explore_eq_ok h
  rcases Nat.eq_zero_or_pos budget.effectiveNodeLimit with hzero | hpos
  · -- a limit of no node stops the search at its root
    rw [hzero] at hsearch ⊢
    rw [search_spent rfl (Nat.zero_le _)] at hsearch
    cases hsearch
    exact ⟨fun _ hp => absurd hp (by simp [searchStart]), ⟨le_refl 0, fun _ => rfl⟩, fun _ _ => .inl rfl⟩
  · -- otherwise the run lemma covers the search from the root
    have hlin := linearBackward_of_forwardReference (hfwd hpos)
    obtain ⟨hs, hvalue⟩ := splitObjective_spec hm hsplit
    have hfree : ∀ v, m.searchStart.assignment.getD v none = none := by
      intro v
      simp only [searchStart, Array.getD_eq_getD_getElem?, Array.getElem?_replicate]
      split <;> rfl
    have hpa : m.Partial m.searchStart.assignment :=
      ⟨Array.size_replicate, fun v x hx => by rw [hfree v] at hx; cases hx⟩
    have hrun := search_run hm hlin hu hs hvalue hobj m.decisions (pending_decisions hm) hpa hsearch
    have hrec : ∀ p ∈ m.searchStart.best, m.Recorded objective p := fun _ hp => by cases hp
    have hbudget : Budgeted budget.effectiveNodeLimit m.searchStart := ⟨Nat.zero_le _, nofun⟩
    refine ⟨hrun.advances.recorded hrec, hrun.advances.budget hbudget, fun val hval => ?_⟩
    exact hrun.finds val hval fun v x hx => by rw [hfree v] at hx; cases hx

theorem minimize_eq_ok {sol : Solution} (h : m.minimize objective budget = .ok sol) :
    ∃ st, m.explore objective budget = .ok st ∧ st.best = some (sol.objective, sol.values) ∧
      sol.nodes = st.nodes ∧ sol.status = if st.exhausted then .budgetExhausted else .optimal := by
  obtain ⟨st, hst, hout⟩ := bind_eq_ok.1 h
  refine ⟨st, hst, ?_⟩
  unfold outcomeOf at hout
  split at hout
  · cases hout
    exact ⟨‹_›, rfl, rfl⟩
  · split at hout <;> cases hout

theorem minimize_eq_error {e : SolveError} (h : m.minimize objective budget = .error e) :
    m.explore objective budget = .error e ∨ ∃ st, m.explore objective budget = .ok st ∧
      st.best = none ∧ e = if st.exhausted then .noSolutionWithinBudget st.nodes else .infeasible st.nodes := by
  unfold minimize at h
  cases hst : m.explore objective budget with
  | error e' =>
    rw [hst] at h
    cases h
    exact .inl rfl
  | ok st =>
    rw [hst] at h
    refine .inr ⟨st, rfl, ?_⟩
    change outcomeOf st = .error e at h
    unfold outcomeOf at h
    split at h
    · cases h
    · refine ⟨‹_›, ?_⟩
      split at h <;> cases h <;> simp [*]

theorem minimize_no_solution {e : SolveError} (h : m.minimize objective budget = .error e)
    (hread : ∀ r, e ≠ .invalidModel r) (hfault : ∀ f, e ≠ .fault f) :
    ∃ st, m.explore objective budget = .ok st ∧ st.best = none ∧
      e = if st.exhausted then .noSolutionWithinBudget st.nodes else .infeasible st.nodes := by
  rcases minimize_eq_error h with herr | hst
  · rcases explore_eq_error herr with ⟨r, rfl⟩ | ⟨f, rfl⟩
    · exact absurd rfl (hread r)
    · exact absurd rfl (hfault f)
  · exact hst

theorem minimize_optimal_complete (hb : m.Built) (hu : m.Unclamped)
    (htime : budget.timeLimit ≠ some ⟨0, 0⟩) :
    (∀ sol, m.minimize objective budget = .ok sol → sol.status = .optimal →
      ∀ val, m.Satisfies val → sol.objective ≤ val objective) ∧
    (∀ n, m.minimize objective budget = .error (.infeasible n) → ∀ val, ¬m.Satisfies val) ∧
    (∀ sol, m.minimize objective budget = .ok sol → sol.status = .budgetExhausted →
      sol.nodes = budget.nodeLimit) ∧
    (∀ n, m.minimize objective budget = .error (.noSolutionWithinBudget n) → n = budget.nodeLimit) := by
  -- a time limit that does not fire leaves the node limit as it is
  have hlimit : budget.effectiveNodeLimit = budget.nodeLimit := by
    simp [Budget.effectiveNodeLimit, htime]
  refine ⟨fun sol h hopt val hval => ?_, fun n h val hval => ?_, fun sol h hex => ?_, fun n h => ?_⟩
  · obtain ⟨st, hst, hbest, -, hstatus⟩ := minimize_eq_ok h
    have hnex : st.exhausted = false := by
      cases hx : st.exhausted
      · rfl
      · rw [hx, hopt] at hstatus
        cases hstatus
    rcases (explore_explored hb hu hst).covers val hval with hx | ⟨p, hp, hle⟩
    · rw [hnex] at hx
      cases hx
    · rw [hbest] at hp
      cases hp
      exact hle
  · obtain ⟨st, hst, hnone, he⟩ := minimize_no_solution h nofun nofun
    have hnex : st.exhausted = false := by
      cases hx : st.exhausted
      · rfl
      · rw [hx] at he
        cases he
    rcases (explore_explored hb hu hst).covers val hval with hx | ⟨p, hp, -⟩
    · rw [hnex] at hx
      cases hx
    · rw [hnone] at hp
      cases hp
  · obtain ⟨st, hst, -, hnodes, hstatus⟩ := minimize_eq_ok h
    have hx : st.exhausted = true := by
      cases hx : st.exhausted
      · rw [hx, hex] at hstatus
        cases hstatus
      · rfl
    rw [hnodes, ← hlimit]
    exact (explore_explored hb hu hst).budget.2 hx
  · obtain ⟨st, hst, -, he⟩ := minimize_no_solution h nofun nofun
    cases hx : st.exhausted
    · rw [hx] at he
      cases he
    · rw [hx] at he
      cases he
      rw [← hlimit]
      exact (explore_explored hb hu hst).budget.2 hx

theorem pickModel_minimize : pickModel.minimize 5 {} = .ok ⟨#[3, 0, 1, 2, 0, 4], 4, .optimal, 6⟩ := by
  cbv

theorem pickModel_minimize_optimal_complete :
    pickModel.Built ∧ pickModel.Unclamped ∧ (({} : Budget).timeLimit ≠ some ⟨0, 0⟩) ∧
    pickModel.minimize 5 {} = .ok ⟨#[3, 0, 1, 2, 0, 4], 4, .optimal, 6⟩ ∧
    ((∀ sol, pickModel.minimize 5 {} = .ok sol → sol.status = .optimal →
      ∀ val, pickModel.Satisfies val → sol.objective ≤ val 5) ∧
    (∀ n, pickModel.minimize 5 {} = .error (.infeasible n) → ∀ val, ¬pickModel.Satisfies val) ∧
    (∀ sol, pickModel.minimize 5 {} = .ok sol → sol.status = .budgetExhausted →
      sol.nodes = ({} : Budget).nodeLimit) ∧
    (∀ n, pickModel.minimize 5 {} = .error (.noSolutionWithinBudget n) → n = ({} : Budget).nodeLimit)) :=
  ⟨pickModel_built, pickModel_unclamped, by decide, pickModel_minimize,
    minimize_optimal_complete pickModel_built pickModel_unclamped (by decide)⟩

theorem minimize_recorded (hb : m.Built) (hu : m.Unclamped) {sol : Solution}
    (h : m.minimize objective budget = .ok sol) : m.Recorded objective (sol.objective, sol.values) := by
  obtain ⟨st, hst, hbest, -⟩ := minimize_eq_ok h
  exact (explore_explored hb hu hst).recorded _ hbest

theorem minimize_solution_sound (hb : m.Built) (hu : m.Unclamped) {sol : Solution}
    (h : m.minimize objective budget = .ok sol) :
    sol.values.size = m.nodes.size ∧ m.Assigns sol.value ∧ m.OneHot sol.value ∧
      ((∀ ms ∈ m.groups, ms.Nodup) → m.Satisfies sol.value) ∧ sol.objective = sol.value objective := by
  have hrec := minimize_recorded hb hu h
  refine ⟨hrec.size, hrec.assigns, hrec.oneHot, fun hnd => ?_, hrec.value⟩
  -- with no member listed twice, one member at one is a sum of one
  exact ⟨hrec.assigns, hrec.oneHot.grouped hnd⟩

theorem pickModel_minimize_solution_sound :
    pickModel.Built ∧ pickModel.Unclamped ∧ pickModel.minimize 5 {} = .ok ⟨#[3, 0, 1, 2, 0, 4], 4, .optimal, 6⟩ ∧
    ((#[3, 0, 1, 2, 0, 4] : Array Int).size = pickModel.nodes.size ∧
      pickModel.Assigns (Solution.value ⟨#[3, 0, 1, 2, 0, 4], 4, .optimal, 6⟩) ∧
      pickModel.OneHot (Solution.value ⟨#[3, 0, 1, 2, 0, 4], 4, .optimal, 6⟩) ∧
      ((∀ ms ∈ pickModel.groups, ms.Nodup) → pickModel.Satisfies (Solution.value ⟨#[3, 0, 1, 2, 0, 4], 4, .optimal, 6⟩)) ∧
      (4 : Int) = Solution.value ⟨#[3, 0, 1, 2, 0, 4], 4, .optimal, 6⟩ 5) :=
  ⟨pickModel_built, pickModel_unclamped, pickModel_minimize,
    minimize_solution_sound pickModel_built pickModel_unclamped pickModel_minimize⟩

def oneBool : Model := (({} : Model).newBool "a").1

theorem oneBool_built : oneBool.Built := .newBool "a" .empty

/-- A group may list a member twice. The search then sets the member to one, which the group's
sum counts twice, and still answers with it. -/
theorem minimize_repeated_member :
    ∃ m, oneBool.addExactlyOne [0, 0] = .ok m ∧ m.Built ∧ m.Unclamped ∧
      m.minimize 0 {} = .ok ⟨#[1], 1, .optimal, 3⟩ ∧
      ¬m.Satisfies (Solution.value ⟨#[1], 1, .optimal, 3⟩) := by
  have hadd : oneBool.addExactlyOne [0, 0] =
      .ok ⟨#[.var 0], #[⟨"a", 0, [0, 1], true, some 0⟩], #[], #[[0, 0]], []⟩ := by cbv
  refine ⟨_, hadd, .addExactlyOne [0, 0] oneBool_built hadd, by decide +kernel, by cbv, fun h => ?_⟩
  -- the member at one, counted twice
  have hsum := h.grouped [0, 0] (by simp)
  revert hsum
  decide

end Model

end TileSched
