import TileSched.Proofs.Search.Runs
import TileSched.Proofs.Search.Tally
/-! The search keeps its tree. Read through `Searcher.tally`, every iteration moves the tallies as
`SearchTally.Iterates` allows, whatever the environment does: selection leaves them alone, an
expansion adds at most one child, and a simulation is recorded on the node and every node above
it. So a run of `search` from a new searcher ends in a tree whose visit counts and least values
are those of the simulations it reports. -/

namespace TileSched

namespace SearchNode

variable {σ α : Type}

def tally (n : SearchNode σ α) : NodeTally := ⟨n.parent, n.children, n.quality, n.visits⟩

end SearchNode

namespace Searcher

open Searching EnvironmentState

variable {σ α : Type} {s s' : Searcher σ α} {w w' : Workspace}

def tally (s : Searcher σ α) : SearchTally :=
  ⟨s.nodes.map SearchNode.tally, s.bestValue, s.bestNode, s.rollouts⟩

@[simp] theorem getElem?_tally (s : Searcher σ α) (i : Nat) :
    s.tally.nodes[i]? = s.nodes[i]?.map SearchNode.tally := Array.getElem?_map

@[simp] theorem size_tally (s : Searcher σ α) : s.tally.nodes.size = s.nodes.size := Array.size_map

theorem SameTree.tally_eq (h : SameTree s s') : s'.tally = s.tally := by
  simp only [tally, h.nodes, h.bestValue, h.bestNode, h.rollouts]

theorem tally_setIfInBounds {i : Nat} {n n' : SearchNode σ α} (hn : s.nodes[i]? = some n)
    (g : NodeTally → NodeTally) (h : n'.tally = g n.tally) :
    { s with nodes := s.nodes.setIfInBounds i n' }.tally =
      { s.tally with nodes := s.tally.nodes.modify i g } := by
  have hi : i < s.nodes.size := (Array.getElem?_eq_some_iff.1 hn).1
  refine SearchTally.ext (Array.ext_getElem? fun k => ?_) rfl rfl rfl
  simp only [tally, Array.getElem?_map, Array.getElem?_setIfInBounds, Array.getElem?_modify]
  by_cases hk : i = k
  · subst hk
    simp only [↓reduceIte, hi, hn, Option.map_some, h]
  · simp [hk]

theorem tally_setIfInBounds_same {i : Nat} {n : SearchNode σ α} (hn : s.nodes[i]? = some n)
    (n' : SearchNode σ α) (h : n'.tally = n.tally) : { s with nodes := s.nodes.setIfInBounds i n' }.tally = s.tally := by
  rw [tally_setIfInBounds hn (fun x => x) h]
  refine SearchTally.ext (Array.ext_getElem? fun k => ?_) rfl rfl rfl
  simp [Array.getElem?_modify, Function.comp_def]

theorem tally_adopt {sel : Nat} {n : SearchNode σ α} (hn : s.nodes[sel]? = some n)
    {child n' : SearchNode σ α} (hchild : child.tally = ⟨some sel, [], .infinity, 0⟩)
    (hn' : n'.tally = { n.tally with children := n.tally.children ++ [s.nodes.size] }) :
    { s with nodes := (s.nodes.push child).setIfInBounds sel n' }.tally = s.tally.grow sel := by
  obtain ⟨hsel, hval⟩ := Array.getElem?_eq_some_iff.1 hn
  refine SearchTally.ext (Array.ext_getElem? fun k => ?_) rfl rfl rfl
  rw [SearchTally.getElem?_grow]
  simp only [tally, Array.getElem?_map, Array.getElem?_setIfInBounds, Array.getElem?_push,
    Array.size_push, Array.size_map]
  by_cases hk : sel = k
  · subst hk
    simp [hsel, Nat.ne_of_lt hsel, hval, hn', Nat.lt_succ_of_lt hsel]
  · by_cases hks : k = s.nodes.size
    · subst hks
      simp [Nat.ne_of_lt hsel, hchild]
    · simp [hk, hks, Ne.symm hk, Function.comp_def]

theorem runs_expand [EnvironmentState σ α] [ToString α] {sel : Nat} {r : Option Nat}
    (h : Runs (expand sel) s w r s' w') : s.tally.Expands sel r s'.tally := by
  unfold expand at h
  obtain ⟨n, s₁, w₁, hn, h⟩ := runs_bind.1 h
  obtain ⟨hget, h₁, h₂⟩ := runs_node.1 hn
  subst s₁ w₁
  have hsel : sel < s.nodes.size := (Array.getElem?_eq_some_iff.1 hget).1
  split at h
  · -- never visited, or nothing left to try: the node itself is valued
    obtain ⟨rfl, rfl, -⟩ := runs_pure.1 h
    exact .itself (by simpa using hsel)
  · rename_i hvisited
    split at h
    · rename_i action state _
      -- the node gives up its next action; only its state changes
      obtain ⟨_, s₂, w₂, hset, h⟩ := runs_bind.1 h
      obtain ⟨hs₂, hw₂⟩ := runs_setNode.1 hset
      subst w₂
      have htally₂ : s₂.tally = s.tally := hs₂ ▸ tally_setIfInBounds_same hget { n with state } rfl
      have hget₂ : s₂.nodes[sel]? = some { n with state } := by
        rw [hs₂]
        exact Array.getElem?_setIfInBounds_self_of_lt hsel
      obtain ⟨res, s₃, w₃, hperform, h⟩ := runs_bind.1 h
      obtain ⟨-, h₃⟩ := runs_lift.1 hperform
      subst s₃
      split at h
      · -- the action was taken: a new child, listed last at `sel`
        obtain ⟨g, s₄, w₄, hg, h⟩ := runs_bind.1 h
        obtain ⟨hg₁, hg₂, hg₃⟩ := runs_get.1 hg
        subst g s₄ w₄
        obtain ⟨_, s₅, w₅, hm, h⟩ := runs_bind.1 h
        obtain ⟨hm₁, hm₂⟩ := runs_modify.1 hm
        subst s₅ w₅
        obtain ⟨_, s₆, w₆, hs, h⟩ := runs_bind.1 h
        obtain ⟨hl₁, hl₂⟩ := runs_setNode.1 hs
        subst s₆ w₆
        obtain ⟨hr, hs', -⟩ := runs_pure.1 h
        have hr' : r = some s.tally.nodes.size := by
          rw [← hr, size_tally, hs₂, Array.size_setIfInBounds]
        have hgrow : s'.tally = s.tally.grow sel := by
          rw [← hs', ← htally₂]
          exact tally_adopt hget₂ rfl rfl
        have hpos : 0 < n.visits := by
          simp only [Bool.or_eq_true, beq_iff_eq, not_or] at hvisited
          exact Nat.pos_of_ne_zero hvisited.1
        rw [hr', hgrow]
        exact .grown (show s.tally.nodes[sel]? = some n.tally by simp [hget]) hpos
      · -- the action was refused: only the node's state changed
        obtain ⟨_, s₄, w₄, hnote, h⟩ := runs_bind.1 h
        obtain ⟨-, h₄⟩ := runs_lift.1 hnote
        subst s₄
        obtain ⟨rfl, rfl, -⟩ := runs_pure.1 h
        rw [htally₂]
        exact .refused
    · obtain ⟨rfl, rfl, -⟩ := runs_pure.1 h
      exact .refused

def RollOutsAreNumbers (σ α : Type) [EnvironmentState σ α] : Prop :=
  ∀ (st st' : σ) (w w' : Workspace) (v : Double),
    (rollOut st : Work (Double × σ)).run.run w = (.ok (v, st'), w') → v.isNaN = false

theorem runs_simulate [EnvironmentState σ α] {id : Nat} {v : Double} (h : Runs (simulate id) s w v s' w') :
    (∃ n st w₁, s.nodes[id]? = some n ∧ (rollOut n.state : Work (Double × σ)).run.run w = (.ok (v, st), w₁)) ∧
    s'.tally = { s.tally with
      bestValue := if v < s.bestValue then v else s.bestValue,
      bestNode := if v < s.bestValue then some id else s.bestNode,
      rollouts := s.rollouts + 1 } := by
  unfold simulate at h
  obtain ⟨n, s₁, w₁, hn, h⟩ := runs_bind.1 h
  obtain ⟨hget, h₁, h₂⟩ := runs_node.1 hn
  subst s₁ w₁
  obtain ⟨⟨u, st⟩, s₂, w₂, hlift, h⟩ := runs_bind.1 h
  obtain ⟨hrun, h₂⟩ := runs_lift.1 hlift
  subst s₂
  dsimp only at h
  -- the node keeps the state the rollout left; its tallies do not change
  obtain ⟨_, s₃, w₃, hset, h⟩ := runs_bind.1 h
  obtain ⟨hs₃, hw₃⟩ := runs_setNode.1 hset
  subst w₃
  have hnodes : s₃.tally.nodes = s.tally.nodes :=
    congrArg SearchTally.nodes (hs₃ ▸ tally_setIfInBounds_same hget _ rfl)
  have hbest : s₃.bestValue = s.bestValue ∧ s₃.bestNode = s.bestNode ∧ s₃.rollouts = s.rollouts := by
    subst hs₃
    exact ⟨rfl, rfl, rfl⟩
  obtain ⟨_, s₄, w₄, hm, h⟩ := runs_bind.1 h
  obtain ⟨hs₄, hw₄⟩ := runs_modify.1 hm
  subst s₄ w₄
  obtain ⟨g, s₅, w₅, hg, h⟩ := runs_bind.1 h
  obtain ⟨hg₁, hg₂, hg₃⟩ := runs_get.1 hg
  subst g s₅ w₅
  obtain ⟨hv, hr⟩ := hbest
  split at h
  · -- strictly best: kept
    rename_i hlt
    obtain ⟨_, s₆, w₆, hm, h⟩ := runs_bind.1 h
    obtain ⟨hs₆, hw₆⟩ := runs_modify.1 hm
    subst s₆ w₆
    obtain ⟨huv, hs', hw'⟩ := runs_pure.1 h
    subst v s' w'
    refine ⟨⟨n, st, w₂, hget, hrun⟩, ?_⟩
    have hlt' : u < s.bestValue := hv ▸ hlt
    rw [if_pos hlt', if_pos hlt']
    exact SearchTally.ext hnodes rfl rfl (congrArg (· + 1) hr.2)
  · rename_i hlt
    obtain ⟨huv, hs', hw'⟩ := runs_pure.1 h
    subst v s' w'
    refine ⟨⟨n, st, w₂, hget, hrun⟩, ?_⟩
    have hlt' : ¬ u < s.bestValue := hv ▸ hlt
    rw [if_neg hlt', if_neg hlt']
    exact SearchTally.ext hnodes hv hr.1 (congrArg (· + 1) hr.2)

theorem runs_backpropagate {v : Double} :
    ∀ {f id : Nat} {s s' : Searcher σ α} {w w' : Workspace} {u : Unit},
      (∀ k p, s.tally.parentOf k = some p → p < k) → (s.tally.ancestry id).length ≤ f →
      Runs (backpropagate v f (some id)) s w u s' w' → s'.tally = { s.tally with nodes := s.tally.passUp id v }
  | 0, id, s, _, _, _, _, _, hf, _ => by
    rw [SearchTally.ancestry_eq] at hf
    simp at hf
  | f + 1, id, s, s', w, w', u, hdesc, hf, h => by
    simp only [backpropagate] at h
    obtain ⟨n, s₁, w₁, hn, h⟩ := runs_bind.1 h
    obtain ⟨hget, h₁, h₂⟩ := runs_node.1 hn
    subst s₁ w₁
    obtain ⟨_, s₂, w₂, hset, h⟩ := runs_bind.1 h
    obtain ⟨hs₂, hw₂⟩ := runs_setNode.1 hset
    subst w₂
    have htally₂ : s₂.tally = { s.tally with nodes := s.tally.nodes.modify id (·.pass v) } :=
      hs₂ ▸ tally_setIfInBounds hget _ rfl
    have hparent : s.tally.parentOf id = n.parent := by
      simp [SearchTally.parentOf, hget, SearchNode.tally]
    cases hp : n.parent with
    | none =>
      -- the root: the walk ends here
      rw [hp] at h
      have hpure : Runs (pure () : Searching σ α Unit) s₂ w u s' w' := by
        cases f <;> simpa only [backpropagate] using h
      obtain ⟨-, rfl, rfl⟩ := runs_pure.1 hpure
      rw [htally₂, SearchTally.passUp_of_none (hparent.trans hp)]
    | some p =>
      rw [hp] at h
      have hp' : s.tally.parentOf id = some p := hparent.trans hp
      have hlt : p < id := hdesc id p hp'
      -- the walk goes on from the parent, whose ancestry passing a value does not change
      have hdesc₂ : ∀ k q, s₂.tally.parentOf k = some q → q < k := by
        intro k q hq
        rw [htally₂, SearchTally.parentOf_modify_pass] at hq
        exact hdesc k q hq
      have hf₂ : (s₂.tally.ancestry p).length ≤ f := by
        rw [htally₂, SearchTally.ancestry_congr fun k _ => SearchTally.parentOf_modify_pass _ id v k]
        rw [SearchTally.ancestry_of_lt hp' hlt, List.length_cons] at hf
        omega
      rw [runs_backpropagate hdesc₂ hf₂ h, htally₂, SearchTally.passUp_of_parent hp' hlt]

theorem runs_iterate [EnvironmentState σ α] [ToString α] (hroll : RollOutsAreNumbers σ α)
    (ht : s.tally.Shaped) {i : Nat} {r : Option (Nat × Double)} (h : Runs (iterate i) s w r s' w') :
    s.tally.Iterates r s'.tally := by
  unfold iterate at h
  obtain ⟨sel, s₁, w₁, hselect, h⟩ := runs_bind.1 h
  have hsame : s₁.tally = s.tally := (moves_select s w sel s₁ w₁ hselect).tally_eq
  obtain ⟨res, s₂, w₂, hexp, h⟩ := runs_bind.1 h
  have hexpands : s.tally.Expands sel res s₂.tally := hsame ▸ runs_expand hexp
  split at h
  · -- the expansion was refused: nothing is simulated
    obtain ⟨_, s₃, w₃, hnote, h⟩ := runs_bind.1 h
    obtain ⟨-, h₃⟩ := runs_lift.1 hnote
    subst s₃
    obtain ⟨rfl, hs', -⟩ := runs_pure.1 h
    subst s'
    rw [hexpands.eq_of_none]
    exact .refused
  · rename_i id
    obtain ⟨v, s₃, w₃, hsim, h⟩ := runs_bind.1 h
    obtain ⟨⟨n, st, w₄, hget, hrun⟩, htally₃⟩ := runs_simulate hsim
    obtain ⟨_, s₄, w₄, hnote, h⟩ := runs_bind.1 h
    obtain ⟨-, h₄⟩ := runs_lift.1 hnote
    subst s₄
    obtain ⟨g, s₅, w₅, hg, h⟩ := runs_bind.1 h
    obtain ⟨hg₁, hg₂, hg₃⟩ := runs_get.1 hg
    subst g s₅ w₅
    obtain ⟨_, s₆, w₆, hb, h⟩ := runs_bind.1 h
    obtain ⟨rfl, hs', -⟩ := runs_pure.1 h
    subst s'
    -- the simulation left the nodes as the expansion made them
    have hnodes : s₃.tally.nodes = s₂.tally.nodes := by rw [htally₃]
    have ht₂ : s₂.tally.Shaped := hexpands.shaped ht
    have hdesc : ∀ k p, s₃.tally.parentOf k = some p → p < k := by
      intro k p hp
      simp only [SearchTally.parentOf, hnodes] at hp
      exact ht₂.parentOf_lt hp
    have hlen : (s₃.tally.ancestry id).length ≤ s₃.nodes.size + 1 := by
      have hid := hexpands.lt
      have hanc := SearchTally.length_ancestry_le s₃.tally id
      rw [← size_tally, hnodes]
      omega
    rw [runs_backpropagate hdesc hlen hb, SearchTally.passUp_congr hnodes, htally₃]
    exact .simulated hexpands (hroll _ _ _ _ _ hrun)

theorem runs_iterations [EnvironmentState σ α] [ToString α] (hroll : RollOutsAreNumbers σ α) :
    ∀ {is : List Nat} {s s' : Searcher σ α} {w w' : Workspace} {rs : List (Option (Nat × Double))},
      s.tally.Shaped → Runs (is.mapM iterate) s w rs s' w' → SearchTally.IteratesAll s.tally rs s'.tally
  | [], s, s', w, w', rs, _, h => by
    obtain ⟨rfl, rfl, -⟩ := runs_pure.1 h
    exact .nil _
  | i :: is, s, s', w, w', rs, ht, h => by
    obtain ⟨r, t, v, rs', hi, his, rfl⟩ := runs_mapM_cons.1 h
    have hstep := runs_iterate hroll ht hi
    exact .cons hstep (runs_iterations hroll (hstep.shaped ht) his)

theorem runs_search [EnvironmentState σ α] [ToString α] (hroll : RollOutsAreNumbers σ α)
    {iterations : Nat} {sims : List (Nat × Double)} (ht : s.tally.Shaped)
    (h : Runs (search iterations) s w sims s' w') :
    ∃ rs, SearchTally.IteratesAll s.tally rs s'.tally ∧ sims = rs.filterMap id := by
  unfold search at h
  obtain ⟨rs, s₁, w₁, hrs, h⟩ := runs_bind.1 h
  obtain ⟨rfl, rfl, -⟩ := runs_pure.1 h
  exact ⟨rs, runs_iterations hroll ht hrs, rfl⟩

theorem tally_new (root : σ) (seed : Nat) (exploration temperature : Float) :
    ((new root seed : Searcher σ α).withExploration exploration temperature).tally = SearchTally.init :=
  SearchTally.ext (by simp [tally, new, withExploration, SearchTally.init, SearchNode.tally]) rfl rfl rfl

structure Summarizes (s : Searcher σ α) (sims : List (Nat × Double)) : Prop where
  /-- The nodes form a tree rooted at node zero in which every other node's parent comes before
  it and lists it once, and only visited nodes have children. -/
  shaped : s.tally.Shaped
  /-- Each node's visits and quality are the count and least value of the simulations at it or
  below it; the rollouts, best value and best node are those of all the simulations. -/
  tallies : s.tally.Tallies sims
  quality_le_child : ∀ (i c : Nat) (x y : SearchNode σ α), s.nodes[i]? = some x → c ∈ x.children →
    s.nodes[c]? = some y → x.quality ≤ y.quality
  children_visits_le : ∀ (i : Nat) (x : SearchNode σ α), s.nodes[i]? = some x →
    ((x.children.filterMap fun c => s.nodes[c]?).map (·.visits)).sum ≤ x.visits
  root : ∀ r : SearchNode σ α, s.nodes[0]? = some r → r.visits = s.rollouts ∧ r.quality = s.bestValue
  /-- The best node is the first simulated node whose value is the best value. -/
  bestNode_first : ∀ id, s.bestNode = some id → ∃ k : Nat, sims[k]? = some (id, s.bestValue) ∧
    ∀ j < k, ∀ x : Nat × Double, sims[j]? = some x → s.bestValue < x.2

theorem Summarizes.of_tally {sims : List (Nat × Double)} (ht : s.tally.Shaped) (hs : s.tally.Tallies sims) :
    s.Summarizes sims := by
  refine ⟨ht, hs, fun i c x y hx hc hy => ?_, fun i x hx => ?_, fun r hr => ?_, fun id hb => hs.bestNode_first hb⟩
  · have hx' : s.tally.nodes[i]? = some x.tally := by simp [hx]
    have hy' : s.tally.nodes[c]? = some y.tally := by simp [hy]
    exact SearchTally.quality_le_child ht hs hx' hc hy'
  · have hle := SearchTally.children_visits_le ht hs (show s.tally.nodes[i]? = some x.tally by simp [hx])
    simpa [List.map_filterMap, Function.comp_def, SearchNode.tally] using hle
  · have hr' : s.tally.nodes[0]? = some r.tally := by simp [hr]
    exact ⟨SearchTally.root_visits ht hs hr', SearchTally.root_quality ht hs hr'⟩

/-- Every successful search from a new searcher, over an environment whose rollouts are numbers,
leaves a tree that summarizes the simulations it reports, whatever the seed, the exploration
weight, the temperature and the number of iterations. -/
theorem search_summarizes_simulations [EnvironmentState σ α] [ToString α] (hroll : RollOutsAreNumbers σ α)
    (root : σ) (seed : Nat) (exploration temperature : Float) (iterations : Nat)
    {sims : List (Nat × Double)}
    (h : Runs (search iterations) ((new root seed).withExploration exploration temperature) w sims s' w') :
    s'.Summarizes sims := by
  obtain ⟨rs, hrun, rfl⟩ := runs_search hroll (by rw [tally_new]; exact SearchTally.init_shaped) h
  rw [tally_new] at hrun
  obtain ⟨ht, hs⟩ := hrun.invariant SearchTally.init_shaped SearchTally.init_tallies
  exact .of_tally ht (by simpa using hs)

inductive Offer
  | root (options : List Nat)
  | taken (option : Nat)
  deriving Inhabited

def Offer.value : Offer → Double
  | .root _ => ⟨0x4014000000000000⟩
  | .taken 0 => ⟨0x3FF0000000000000⟩
  | .taken _ => ⟨0x4000000000000000⟩

instance : EnvironmentState Offer Nat where
  legalActions
    | .root os => os.length
    | .taken _ => 0
  nextAction s _ :=
    match s with
    | .root (o :: os) => some (o, .root os)
    | _ => none
  perform _ o := pure (some (.taken o))
  rollOut s := pure (s.value, s)

def offerStart : Searcher Offer Nat := (new (.root [1, 0]) 0).withExploration 1.0 0.5

/-- The search tree after one, two and three iterations from `offerStart`: the root valued at
five, then option one expanded as a child and valued at two, then option zero at one. -/
def offerTree : Nat → Searcher Offer Nat
  | 1 => { offerStart with
      nodes := #[⟨.root [1, 0], none, [], none, (Offer.root []).value, 1⟩],
      bestValue := (Offer.root []).value, bestNode := some 0, rollouts := 1 }
  | 2 => { offerStart with
      nodes := #[⟨.root [0], none, [1], none, (Offer.taken 1).value, 2⟩,
        ⟨.taken 1, some 0, [], some 1, (Offer.taken 1).value, 1⟩],
      bestValue := (Offer.taken 1).value, bestNode := some 1, rollouts := 2 }
  | _ => { offerStart with
      nodes := #[⟨.root [], none, [1, 2], none, (Offer.taken 0).value, 3⟩,
        ⟨.taken 1, some 0, [], some 1, (Offer.taken 1).value, 1⟩,
        ⟨.taken 0, some 0, [], some 0, (Offer.taken 0).value, 1⟩],
      bestValue := (Offer.taken 0).value, bestNode := some 2, rollouts := 3 }

def offerRecord (i : Nat) (v : Double) : LogRecord :=
  ⟨.debug, source, "iteration " ++ toString i ++ ": node " ++ toString i ++ " value " ++ Decimal.plainText v.toFloat⟩

def offerSims : List (Nat × Double) :=
  [(0, (Offer.root []).value), (1, (Offer.taken 1).value), (2, (Offer.taken 0).value)]

theorem offer_search_summarizes :
    RollOutsAreNumbers Offer Nat ∧
    Runs (search 3) offerStart {} offerSims (offerTree 3) { log := (offerSims.map fun (i, v) => offerRecord i v).toArray } ∧
    (offerTree 3).Summarizes offerSims := by
  have hroll : RollOutsAreNumbers Offer Nat := by
    intro st st' w w' v h
    -- a rollout returns the state's value, one of three numbers
    have hv : v = st.value := by cases h; rfl
    subst hv
    cases st with
    | root => rfl
    | taken o => cases o <;> rfl
  -- the iterations one at a time: the root is valued, then each option expanded and valued
  have h₀ : Runs (iterate 0) offerStart {} (some (0, (Offer.root []).value)) (offerTree 1)
      { log := #[offerRecord 0 (Offer.root []).value] } := rfl
  have h₁ : Runs (iterate 1) (offerTree 1) { log := #[offerRecord 0 (Offer.root []).value] }
      (some (1, (Offer.taken 1).value)) (offerTree 2)
      { log := #[offerRecord 0 (Offer.root []).value, offerRecord 1 (Offer.taken 1).value] } := rfl
  have h₂ : Runs (iterate 2) (offerTree 2)
      { log := #[offerRecord 0 (Offer.root []).value, offerRecord 1 (Offer.taken 1).value] }
      (some (2, (Offer.taken 0).value)) (offerTree 3)
      { log := (offerSims.map fun (i, v) => offerRecord i v).toArray } := rfl
  have hrun : Runs (search 3) offerStart {} offerSims (offerTree 3)
      { log := (offerSims.map fun (i, v) => offerRecord i v).toArray } := by
    refine runs_bind.2 ⟨_, _, _, runs_mapM_cons.2 ⟨_, _, _, _, h₀, runs_mapM_cons.2 ⟨_, _, _, _, h₁,
      runs_mapM_cons.2 ⟨_, _, _, _, h₂, runs_pure.2 ⟨rfl, rfl, rfl⟩, rfl⟩, rfl⟩, rfl⟩, runs_pure.2 ⟨rfl, rfl, rfl⟩⟩
  exact ⟨hroll, hrun, search_summarizes_simulations hroll (.root [1, 0]) 0 1.0 0.5 3 hrun⟩

end Searcher

end TileSched
