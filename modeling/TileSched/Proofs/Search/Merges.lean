import TileSched.Proofs.Search.Nodes
import TileSched.Proofs.Search.Rounding
import TileSched.Proofs.Fusion.Work
import TileSched.Search.State
/-! The merge search's states. A state's next action gives up that action and nothing else; a
performed merge starts a fresh state of the merged graph; a rollout solves the graph once and then
keeps its solution. Read through the links, a merge search therefore keeps three facts: the root
holds the start graph, every other node's graph is its parent's merged by the action that leads to
it, and every solution is one that solving the node's graph gave. The simulations it reports are
exactly its valued states, each with the worth of the solution the state keeps. -/

namespace TileSched

namespace MergeState

open Work

variable {st st' st'' : MergeState} {w w' : Workspace}

/-- `st'` is `st` carried on by the search: the graph and the setting stay, and a valued state
stays valued with its solution. -/
structure Keeps (st st' : MergeState) : Prop where
  graph : st'.graph = st.graph
  setting : st'.setting = st.setting
  rolled : st.rolled = true → st'.rolled = true ∧ st'.solution = st.solution

theorem Keeps.refl (st : MergeState) : Keeps st st := ⟨rfl, rfl, fun h => ⟨h, rfl⟩⟩

theorem Keeps.trans (h₁ : Keeps st st') (h₂ : Keeps st' st'') : Keeps st st'' :=
  ⟨h₂.graph.trans h₁.graph, h₂.setting.trans h₁.setting, fun h => by
    obtain ⟨hr, hs⟩ := h₁.rolled h
    obtain ⟨hr', hs'⟩ := h₂.rolled hr
    exact ⟨hr', hs'.trans hs⟩⟩

theorem worth_isNaN (sol : Option GraphSolution) : (worth sol).isNaN = false := by
  cases sol with
  | none => exact Double.infinity_isNaN
  | some sol => exact Double.ofInt_isNaN sol.objective

theorem runs_start {setting : SearchSetting} {g : TileGraph} {path : String}
    (h : Runs (start setting g path) w st w') :
    st.setting = setting ∧ st.graph = g ∧ st.rolled = false ∧ st.solution = none ∧ w' = w := by
  unfold start at h
  obtain ⟨mps, w₁, hmps, hrest⟩ := runs_bind.1 h
  obtain ⟨-, hw₁⟩ := runs_lift.1 hmps
  obtain ⟨hst, hw'⟩ := runs_pure.1 hrest
  subst hst hw' hw₁
  exact ⟨rfl, rfl, rfl, rfl, rfl⟩

theorem nextAction_eq {i : Nat} {a : MergePoint} (h : nextAction st i = some (a, st')) :
    st' = { st with untried := st.untried.eraseIdx i, performed := st.performed + 1 } := by
  unfold nextAction at h
  simp only [Option.bind_eq_bind, Option.bind_eq_some_iff, Option.pure_def, Option.some.injEq,
    Prod.mk.injEq] at h
  obtain ⟨k, -, mp, -, -, rfl⟩ := h
  rfl

theorem nextAction_keeps {i : Nat} {a : MergePoint} (h : nextAction st i = some (a, st')) : Keeps st st' := by
  rw [nextAction_eq h]
  exact ⟨rfl, rfl, fun h => ⟨h, rfl⟩⟩

theorem perform_some {a : MergePoint} {c : MergeState} (h : Runs (perform st a) w (some c) w') :
    st.graph.merge a = .ok c.graph ∧ c.setting = st.setting ∧ c.rolled = false ∧ c.solution = none := by
  unfold perform at h
  split at h
  · rename_i g hg
    rw [← bind_pure_comp] at h
    obtain ⟨c', w₁, hstart, hrest⟩ := runs_bind.1 h
    obtain ⟨hc, -⟩ := runs_pure.1 hrest
    cases hc
    obtain ⟨hs, hgraph, hr, hsol, -⟩ := runs_start hstart
    exact ⟨hgraph ▸ hg, hs, hr, hsol⟩
  · split at h
    · obtain ⟨_, w₁, -, hrest⟩ := runs_bind.1 h
      exact absurd (runs_pure.1 hrest).1 (by simp)
    · exact absurd h not_runs_throw

theorem rollOut_of_rolled {v : Double} (hr : st.rolled = true) (h : Runs (rollOut st) w (v, st') w') :
    v = worth st.solution ∧ st' = st ∧ w' = w := by
  unfold rollOut at h
  rw [if_pos hr] at h
  obtain ⟨h₁, h₂⟩ := runs_pure.1 h
  simp only [Prod.mk.injEq] at h₁
  exact ⟨h₁.1.symm, h₁.2.symm, h₂.symm⟩

theorem rollOut_of_not_rolled {v : Double} (hr : st.rolled = false) (h : Runs (rollOut st) w (v, st') w') :
    (∀ e, ((solveGraph st.graph st.setting.target st.setting.budget).run.run w).1 = .error e →
      e.isRecoverable = true) ∧
    v = worth ((solveGraph st.graph st.setting.target st.setting.budget).run.run w).1.toOption ∧
    st' = { st with
        rolled := true
        solution := ((solveGraph st.graph st.setting.target st.setting.budget).run.run w).1.toOption.or
          st.solution } := by
  unfold rollOut at h
  rw [if_neg (by simp [hr])] at h
  obtain ⟨r, w₁, hattempt, hrest⟩ := runs_bind.1 h
  rw [runs_iff _ _ (run_attempt _ w), Prod.mk.injEq, Except.ok.injEq] at hattempt
  obtain ⟨hres, -⟩ := hattempt
  rw [hres]
  split at hrest
  · -- solved: the solution is kept
    obtain ⟨_, w₂, -, hrest⟩ := runs_bind.1 hrest
    obtain ⟨_, w₃, -, hrest⟩ := runs_bind.1 hrest
    obtain ⟨hv, -⟩ := runs_pure.1 hrest
    simp only [Prod.mk.injEq] at hv
    obtain ⟨hv, hst⟩ := hv
    subst hv hst
    exact ⟨fun e he => (by cases he), rfl, rfl⟩
  · split at hrest
    · -- a failure of the graph's own: valued at infinity
      rename_i e hrec
      obtain ⟨_, w₂, -, hrest⟩ := runs_bind.1 hrest
      obtain ⟨hv, -⟩ := runs_pure.1 hrest
      simp only [Prod.mk.injEq] at hv
      obtain ⟨hv, hst⟩ := hv
      subst hv hst
      refine ⟨fun e' he' => ?_, rfl, rfl⟩
      cases he'
      exact hrec
    · exact absurd hrest not_runs_throw

theorem rollOutsAreNumbers : Searcher.RollOutsAreNumbers MergeState MergePoint := by
  intro st st' w w' v h
  cases hr : st.rolled with
  | true =>
    rw [(rollOut_of_rolled hr h).1]
    exact worth_isNaN _
  | false =>
    rw [(rollOut_of_not_rolled hr h).2.1]
    exact worth_isNaN _

theorem rollOut_keeps {v : Double} (hfresh : st.rolled = false → st.solution = none)
    (h : Runs (rollOut st) w (v, st') w') :
    Keeps st st' ∧ st'.rolled = true ∧ v = worth st'.solution ∧
      ∀ sol, st'.solution = some sol → st.solution = some sol ∨
        ∃ w₁ w₂, Runs (solveGraph st.graph st.setting.target st.setting.budget) w₁ sol w₂ := by
  cases hr : st.rolled with
  | true =>
    obtain ⟨hv, hst, -⟩ := rollOut_of_rolled hr h
    subst hv hst
    exact ⟨.refl _, hr, rfl, fun sol hs => .inl hs⟩
  | false =>
    obtain ⟨-, hv, hst⟩ := rollOut_of_not_rolled hr h
    subst hst hv
    rw [hfresh hr, Option.or_none]
    refine ⟨⟨rfl, rfl, fun h => absurd h (by simp [hr])⟩, rfl, rfl, fun sol hs => .inr ?_⟩
    rcases hres : (solveGraph st.graph st.setting.target st.setting.budget).run.run w with ⟨r, t⟩
    rw [hres] at hs
    cases r with
    | ok sol' =>
      cases hs
      exact ⟨w, t, hres⟩
    | error e => cases hs

end MergeState

namespace MergeSearch

open Searcher SearchNode MergeState

/-- What the search never changes in a link: the graph and setting of its state, its parent and
the action that led to it. -/
structure Frame where
  graph : TileGraph
  setting : SearchSetting
  parent : Option Nat
  action : Option MergePoint

def frame (l : Link MergeState MergePoint) : Frame := ⟨l.state.graph, l.state.setting, l.parent, l.action⟩

section

variable (tg₀ : TileGraph) (setting : SearchSetting)

/-- The frames of a merge search as it grows them: the root holds the start graph and no action,
every state shares the setting, and every other graph is its parent's merged by the action that
leads to it. -/
structure Grown (fs : Array Frame) : Prop where
  root : ∀ f : Frame, fs[0]? = some f → f.graph = tg₀ ∧ f.action = none
  setting : ∀ (i : Nat) (f : Frame), fs[i]? = some f → f.setting = setting
  merged : ∀ (i : Nat) (f : Frame) (p : Nat), fs[i]? = some f → f.parent = some p →
    ∃ (fp : Frame) (a : MergePoint), fs[p]? = some fp ∧ f.action = some a ∧ fp.graph.merge a = .ok f.graph

/-- What valuing reads and writes in a link: the graph, whether the state was valued, and its
solution. -/
structure Valuation where
  graph : TileGraph
  rolled : Bool
  solution : Option GraphSolution

def valuation (l : Link MergeState MergePoint) : Valuation := ⟨l.state.graph, l.state.rolled, l.state.solution⟩

/-- The valuations of a merge search against the simulations `sims` run so far: a state not yet
valued holds no solution, every solution is one that solving the state's graph gave, and the
simulations name exactly the valued states, each with the worth of the solution it keeps. -/
structure Valued (vs : Array Valuation) (sims : List (Nat × Double)) : Prop where
  fresh : ∀ (i : Nat) (v : Valuation), vs[i]? = some v → v.rolled = false → v.solution = none
  solved : ∀ (i : Nat) (v : Valuation) (sol : GraphSolution), vs[i]? = some v → v.solution = some sol →
    ∃ w w', Work.Runs (solveGraph v.graph setting.target setting.budget) w sol w'
  valued : ∀ x ∈ sims, ∃ v : Valuation, vs[x.1]? = some v ∧ v.rolled = true ∧ x.2 = worth v.solution
  recorded : ∀ (i : Nat) (v : Valuation) (sol : GraphSolution), vs[i]? = some v → v.solution = some sol →
    ∃ d, (i, d) ∈ sims

end

def Settles (ls ls' : Array (Link MergeState MergePoint)) : Prop :=
  ∀ (i : Nat) (l : Link MergeState MergePoint), ls[i]? = some l → ∃ l' : Link MergeState MergePoint,
    ls'[i]? = some l' ∧ l'.parent = l.parent ∧ l'.action = l.action ∧ MergeState.Keeps l.state l'.state

variable {tg₀ : TileGraph} {setting : SearchSetting} {ls ls' ls'' : Array (Link MergeState MergePoint)}
  {sims : List (Nat × Double)} {i : Nat} {l : Link MergeState MergePoint} {st : MergeState}

theorem getElem?_setIfInBounds_of_some {β : Type} {xs : Array β} {x y : β} (hx : xs[i]? = some x) (j : Nat) :
    (xs.setIfInBounds i y)[j]? = if i = j then some y else xs[j]? := by
  have hi : i < xs.size := (Array.getElem?_eq_some_iff.1 hx).1
  simp [Array.getElem?_setIfInBounds, hi]

theorem getElem?_push_of_some {β : Type} {xs : Array β} {x y : β} (hx : xs[i]? = some x) :
    (xs.push y)[i]? = some x := by
  rw [Array.getElem?_push, if_neg (Nat.ne_of_lt (Array.getElem?_eq_some_iff.1 hx).1)]
  exact hx

theorem map_setIfInBounds_of_some {β γ : Type} (f : β → γ) {xs : Array β} {x y : β} (hx : xs[i]? = some x)
    (hf : f y = f x) : (xs.setIfInBounds i y).map f = xs.map f := by
  refine Array.ext_getElem? fun j => ?_
  rw [Array.getElem?_map, Array.getElem?_map, getElem?_setIfInBounds_of_some hx]
  split
  · rename_i hij
    subst hij
    rw [hx, Option.map_some, Option.map_some, hf]
  · rfl

theorem frames_setIfInBounds {st₀ : MergeState} {p : Option Nat} {a : Option MergePoint}
    (hl : ls[i]? = some ⟨st₀, p, a⟩) (hk : MergeState.Keeps st₀ st) :
    (ls.setIfInBounds i ⟨st, p, a⟩).map frame = ls.map frame :=
  map_setIfInBounds_of_some frame hl (by simp [frame, hk.graph, hk.setting])

theorem valuations_setIfInBounds {st₀ : MergeState} {p : Option Nat} {a : Option MergePoint}
    (hl : ls[i]? = some ⟨st₀, p, a⟩) (hg : st.graph = st₀.graph) (hr : st.rolled = st₀.rolled)
    (hs : st.solution = st₀.solution) :
    (ls.setIfInBounds i ⟨st, p, a⟩).map valuation = ls.map valuation :=
  map_setIfInBounds_of_some valuation hl (by simp [valuation, hg, hr, hs])

theorem Grown.push {fs : Array Frame} (hg : Grown tg₀ setting fs) {p : Nat} {fp : Frame}
    (hp : fs[p]? = some fp) {a : MergePoint} {g : TileGraph} (hm : fp.graph.merge a = .ok g) :
    Grown tg₀ setting (fs.push ⟨g, setting, some p, some a⟩) where
  root f hf := hg.root f (by
    rw [Array.getElem?_push] at hf
    split at hf
    · -- the root is there before any child
      rename_i h0
      have := (Array.getElem?_eq_some_iff.1 hp).1
      omega
    · exact hf)
  setting j f hf := by
    rw [Array.getElem?_push] at hf
    split at hf
    · cases hf
      rfl
    · exact hg.setting j f hf
  merged j f q hf hq := by
    rw [Array.getElem?_push] at hf
    split at hf
    · -- the new child hangs from `p`, by `a`
      cases hf
      cases hq
      exact ⟨fp, a, getElem?_push_of_some hp, rfl, hm⟩
    · obtain ⟨fq, b, hfq, hb, hmb⟩ := hg.merged j f q hf hq
      exact ⟨fq, b, getElem?_push_of_some hfq, hb, hmb⟩

theorem Valued.setIfInBounds {vs : Array Valuation} (hv : Valued setting vs sims) {u u' : Valuation}
    (hu : vs[i]? = some u) (hg : u'.graph = u.graph) (hr : u'.rolled = true)
    (hk : u.rolled = true → u'.solution = u.solution)
    (hs : ∀ sol, u'.solution = some sol → u.solution = some sol ∨
      ∃ w w', Work.Runs (solveGraph u.graph setting.target setting.budget) w sol w') :
    Valued setting (vs.setIfInBounds i u') (sims ++ [(i, worth u'.solution)]) where
  fresh j v hv' hr' := by
    rw [getElem?_setIfInBounds_of_some hu] at hv'
    split at hv'
    · cases hv'
      rw [hr] at hr'
      cases hr'
    · exact hv.fresh j v hv' hr'
  solved j v sol hv' hs' := by
    rw [getElem?_setIfInBounds_of_some hu] at hv'
    split at hv'
    · cases hv'
      rcases hs sol hs' with hold | hnew
      · rw [hg]
        exact hv.solved i u sol hu hold
      · rw [hg]
        exact hnew
    · exact hv.solved j v sol hv' hs'
  valued x hx := by
    rcases List.mem_append.1 hx with hx | hx
    · obtain ⟨v, hv', hrv, hxv⟩ := hv.valued x hx
      rw [getElem?_setIfInBounds_of_some hu]
      split
      · -- a node valued before keeps its solution
        rename_i hix
        subst hix
        rw [hu] at hv'
        cases hv'
        exact ⟨u', rfl, hr, by rw [hxv, hk hrv]⟩
      · exact ⟨v, hv', hrv, hxv⟩
    · rw [List.mem_singleton] at hx
      subst hx
      exact ⟨u', by simp [getElem?_setIfInBounds_of_some hu], hr, rfl⟩
  recorded j v sol hv' hs' := by
    rw [getElem?_setIfInBounds_of_some hu] at hv'
    split at hv'
    · rename_i hij
      subst hij
      exact ⟨_, List.mem_append_right _ (List.mem_singleton_self _)⟩
    · obtain ⟨d, hd⟩ := hv.recorded j v sol hv' hs'
      exact ⟨d, List.mem_append_left _ hd⟩

theorem Valued.push {vs : Array Valuation} (hv : Valued setting vs sims) (g : TileGraph) :
    Valued setting (vs.push ⟨g, false, none⟩) sims where
  fresh j v hv' hr' := by
    rw [Array.getElem?_push] at hv'
    split at hv'
    · cases hv'
      rfl
    · exact hv.fresh j v hv' hr'
  solved j v sol hv' hs' := by
    rw [Array.getElem?_push] at hv'
    split at hv'
    · cases hv'
      cases hs'
    · exact hv.solved j v sol hv' hs'
  valued x hx := by
    obtain ⟨v, hv', hrv, hxv⟩ := hv.valued x hx
    exact ⟨v, getElem?_push_of_some hv', hrv, hxv⟩
  recorded j v sol hv' hs' := by
    rw [Array.getElem?_push] at hv'
    split at hv'
    · cases hv'
      cases hs'
    · exact hv.recorded j v sol hv' hs'

theorem Settles.refl (ls : Array (Link MergeState MergePoint)) : Settles ls ls :=
  fun _ l hl => ⟨l, hl, rfl, rfl, .refl _⟩

theorem Settles.trans (h₁ : Settles ls ls') (h₂ : Settles ls' ls'') : Settles ls ls'' := by
  intro j l hl
  obtain ⟨l', hl', hp, ha, hk⟩ := h₁ j l hl
  obtain ⟨l'', hl'', hp', ha', hk'⟩ := h₂ j l' hl'
  exact ⟨l'', hl'', hp'.trans hp, ha'.trans ha, hk.trans hk'⟩

theorem Settles.setIfInBounds {st₀ : MergeState} {p : Option Nat} {a : Option MergePoint}
    (hl : ls[i]? = some ⟨st₀, p, a⟩) (hk : MergeState.Keeps st₀ st) : Settles ls (ls.setIfInBounds i ⟨st, p, a⟩) := by
  intro j l' hl'
  rw [getElem?_setIfInBounds_of_some hl]
  split
  · rename_i hij
    subst hij
    rw [hl] at hl'
    cases hl'
    exact ⟨_, rfl, rfl, rfl, hk⟩
  · exact ⟨l', hl', rfl, rfl, .refl _⟩

theorem Settles.push (l' : Link MergeState MergePoint) : Settles ls (ls.push l') :=
  fun _ l hl => ⟨l, getElem?_push_of_some hl, rfl, rfl, .refl _⟩

/-- The links of a merge search against the simulations `sims` it ran: the frames grown from the
start graph by merges, the valuations in step with the simulations. -/
structure Consistent (tg₀ : TileGraph) (setting : SearchSetting) (ls : Array (Link MergeState MergePoint))
    (sims : List (Nat × Double)) : Prop where
  grown : Grown tg₀ setting (ls.map frame)
  valued : Valued setting (ls.map valuation) sims

section Search

open Searching

variable {s t u : Searcher MergeState MergePoint} {w w' : Workspace}

theorem getElem?_links_of_some {n : SearchNode MergeState MergePoint} (hn : s.nodes[i]? = some n) :
    s.links[i]? = some ⟨n.state, n.parent, n.action⟩ := by
  simp [hn, link]

theorem getElem?_links_new {root : MergeState} {seed : Nat} {exploration temperature : Float} {j : Nat}
    {l : Link MergeState MergePoint}
    (h : ((new root seed : Searcher MergeState MergePoint).withExploration exploration temperature).links[j]? =
      some l) : j = 0 ∧ l = ⟨root, none, none⟩ := by
  rcases j with _ | j
  · simp [links, new, withExploration, link] at h
    exact ⟨rfl, h.symm⟩
  · simp [links, new, withExploration] at h

theorem consistent_new {root : MergeState} (hg : root.graph = tg₀) (hs : root.setting = setting)
    (hsol : root.solution = none) (seed : Nat) (exploration temperature : Float) :
    Consistent tg₀ setting ((new root seed : Searcher MergeState MergePoint).withExploration exploration
      temperature).links [] := by
  refine ⟨⟨fun f hf => ?_, fun j f hf => ?_, fun j f p hf hp => ?_⟩, ⟨fun j v hv _ => ?_, fun j v sol hv hs' => ?_,
    fun x hx => (by cases hx), fun j v sol hv hs' => ?_⟩⟩
  all_goals
    rw [Array.getElem?_map, Option.map_eq_some_iff] at *
    obtain ⟨l, hl, rfl⟩ := ‹∃ l, _ ∧ _›
    obtain ⟨-, rfl⟩ := getElem?_links_new hl
  · exact ⟨hg, rfl⟩
  · exact hs
  · cases hp
  · exact hsol
  · simp [valuation, hsol] at hs'
  · simp [valuation, hsol] at hs'

theorem expand_consistent (hc : Consistent tg₀ setting t.links sims) {sel : Nat} {res : Option Nat}
    (h : Runs (expand sel) t w res u w') :
    Consistent tg₀ setting u.links sims ∧ Settles t.links u.links := by
  rcases links_expand h with ⟨hu, -⟩ | ⟨n, a, st, hn, hnext, hrest⟩
  · rw [hu]
    exact ⟨hc, .refl _⟩
  have hl := getElem?_links_of_some hn
  have hk : MergeState.Keeps n.state st := nextAction_keeps hnext
  have hst := nextAction_eq hnext
  -- the node gives up its next action and keeps its frame and valuation
  have hset : Consistent tg₀ setting (t.links.setIfInBounds sel ⟨st, n.parent, n.action⟩) sims := by
    refine ⟨?_, ?_⟩
    · rw [frames_setIfInBounds hl hk]
      exact hc.grown
    · rw [valuations_setIfInBounds hl (by rw [hst]) (by rw [hst]) (by rw [hst])]
      exact hc.valued
  rcases hrest with ⟨-, -, hu⟩ | ⟨c, w₁, hrun, -, hu⟩
  · rw [hu]
    exact ⟨hset, .setIfInBounds hl hk⟩
  · -- the merged child hangs below the node, unvalued, in the setting of its parent
    obtain ⟨hm, hcs, hcr, hcsol⟩ := perform_some hrun
    have hsel : (t.links.setIfInBounds sel ⟨st, n.parent, n.action⟩)[sel]? = some ⟨st, n.parent, n.action⟩ := by
      rw [getElem?_setIfInBounds_of_some hl, if_pos rfl]
    have hsetting : st.setting = setting := by
      have := hc.grown.setting sel (frame ⟨n.state, n.parent, n.action⟩) (by simp [hl])
      rw [hk.setting]
      exact this
    rw [hu]
    refine ⟨⟨?_, ?_⟩, (Settles.setIfInBounds hl hk).trans (.push _)⟩
    · have hframe : frame ⟨c, some sel, some a⟩ = ⟨c.graph, setting, some sel, some a⟩ := by
        simp [frame, hcs, hsetting]
      have hp : ((t.links.setIfInBounds sel ⟨st, n.parent, n.action⟩).map frame)[sel]? =
          some (frame ⟨st, n.parent, n.action⟩) := by
        rw [Array.getElem?_map, hsel]
        rfl
      rw [Array.map_push, hframe]
      exact hset.grown.push hp hm
    · have hval : valuation ⟨c, some sel, some a⟩ = ⟨c.graph, false, none⟩ := by
        simp [valuation, hcr, hcsol]
      rw [Array.map_push, hval]
      exact hset.valued.push c.graph

theorem simulate_consistent (hc : Consistent tg₀ setting u.links sims) {id : Nat} {v : Double}
    (h : Runs (simulate id) u w v t w') :
    Consistent tg₀ setting t.links (sims ++ [(id, v)]) ∧ Settles u.links t.links := by
  obtain ⟨n, st, hn, hrun, ht⟩ := links_simulate h
  have hl := getElem?_links_of_some hn
  have hvl : (u.links.map valuation)[id]? = some (valuation ⟨n.state, n.parent, n.action⟩) := by
    rw [Array.getElem?_map, hl]
    rfl
  have hfresh := hc.valued.fresh id _ hvl
  obtain ⟨hk, hr, hv, hsol⟩ := rollOut_keeps hfresh hrun
  have hsetting : n.state.setting = setting :=
    hc.grown.setting id (frame ⟨n.state, n.parent, n.action⟩) (by simp [hl])
  rw [ht]
  refine ⟨⟨?_, ?_⟩, .setIfInBounds hl hk⟩
  · rw [frames_setIfInBounds hl hk]
    exact hc.grown
  · rw [Array.map_setIfInBounds, hv]
    refine hc.valued.setIfInBounds hvl hk.graph hr (fun h' => (hk.rolled h').2) fun sol hs => ?_
    rw [← hsetting]
    exact hsol sol hs

theorem iterate_consistent (hc : Consistent tg₀ setting s.links sims) {i : Nat} {r : Option (Nat × Double)}
    (h : Runs (iterate i) s w r t w') :
    Consistent tg₀ setting t.links (sims ++ r.toList) ∧ Settles s.links t.links := by
  obtain ⟨sel, t₁, w₀, res, u, w₁, hsel, hexp, hrest⟩ := links_iterate h
  have hsame : t₁.links = s.links := (moves_select s w sel t₁ w₀ hsel).links_eq
  rw [← hsame] at hc ⊢
  obtain ⟨hcu, hsu⟩ := expand_consistent hc hexp
  rcases hrest with ⟨-, hr, ht⟩ | ⟨id, v, u', w₂, -, hsim, hr, ht⟩
  · subst hr
    rw [ht]
    exact ⟨by simpa using hcu, hsu⟩
  · subst hr
    obtain ⟨hcu', hsu'⟩ := simulate_consistent hcu hsim
    rw [ht]
    exact ⟨hcu', hsu.trans hsu'⟩

theorem iterations_consistent : ∀ {is : List Nat} {s t : Searcher MergeState MergePoint} {w w' : Workspace}
    {sims : List (Nat × Double)} {rs : List (Option (Nat × Double))},
    Consistent tg₀ setting s.links sims → Runs (is.mapM iterate) s w rs t w' →
      Consistent tg₀ setting t.links (sims ++ rs.filterMap id) ∧ Settles s.links t.links
  | [], s, t, w, w', sims, rs, hc, h => by
    obtain ⟨rfl, rfl, -⟩ := runs_pure.1 h
    exact ⟨by simpa using hc, .refl _⟩
  | i :: is, s, t, w, w', sims, rs, hc, h => by
    obtain ⟨r, u, v, rs', hi, his, rfl⟩ := runs_mapM_cons.1 h
    obtain ⟨hcu, hsu⟩ := iterate_consistent hc hi
    obtain ⟨hct, hst⟩ := iterations_consistent hcu his
    refine ⟨?_, hsu.trans hst⟩
    cases r <;> simpa using hct

end Search

end MergeSearch

end TileSched
