import TileSched.Proofs.Search.Tree
/-! What a search does to the states of its nodes and to where they hang. Read through
`Searcher.links`, selection and passing a value up change nothing; an expansion hands the node
the state its next action leaves and may add the child that action leads to; a simulation hands
the node the state its rollout leaves. So an invariant of the links follows from what the
environment's three operations do to one state. The actions on the way down to a node are read off
the same links. -/

namespace TileSched

namespace SearchNode

structure Link (σ α : Type) where
  state : σ
  parent : Option Nat
  action : Option α

variable {σ α : Type}

def link (n : SearchNode σ α) : Link σ α := ⟨n.state, n.parent, n.action⟩

end SearchNode

namespace Searcher

open Searching EnvironmentState SearchNode

variable {σ α : Type} {s s' : Searcher σ α} {w w' : Workspace}

def links (s : Searcher σ α) : Array (Link σ α) := s.nodes.map link

@[simp] theorem getElem?_links (s : Searcher σ α) (i : Nat) : s.links[i]? = s.nodes[i]?.map link :=
  Array.getElem?_map

@[simp] theorem size_links (s : Searcher σ α) : s.links.size = s.nodes.size := Array.size_map

theorem SameTree.links_eq (h : SameTree s s') : s'.links = s.links := by
  rw [links, links, h.nodes]

theorem links_setIfInBounds_same {i : Nat} {n : SearchNode σ α} (hn : s.nodes[i]? = some n)
    (n' : SearchNode σ α) (h : n'.link = n.link) : (s.nodes.setIfInBounds i n').map link = s.links := by
  refine Array.ext_getElem? fun k => ?_
  simp only [Array.getElem?_map, Array.getElem?_setIfInBounds, getElem?_links]
  by_cases hk : i = k
  · subst hk
    obtain ⟨hi, hget⟩ := Array.getElem?_eq_some_iff.1 hn
    simp [hi, hget, h]
  · simp [hk]

theorem links_backpropagate {v : Double} : ∀ {f : Nat} {id : Option Nat} {s s' : Searcher σ α}
    {w w' : Workspace} {u : Unit}, Runs (backpropagate v f id) s w u s' w' → s'.links = s.links
  | 0, _, _, _, _, _, _, h => by
    obtain ⟨-, rfl, -⟩ := runs_pure.1 h
    rfl
  | _ + 1, none, _, _, _, _, _, h => by
    obtain ⟨-, rfl, -⟩ := runs_pure.1 h
    rfl
  | f + 1, some id, s, s', w, w', u, h => by
    simp only [backpropagate] at h
    obtain ⟨n, s₁, w₁, hn, h⟩ := runs_bind.1 h
    obtain ⟨hget, h₁, h₂⟩ := runs_node.1 hn
    subst s₁ w₁
    obtain ⟨_, s₂, w₂, hset, h⟩ := runs_bind.1 h
    obtain ⟨hs₂, hw₂⟩ := runs_setNode.1 hset
    subst s₂ w₂
    rw [links_backpropagate h]
    exact links_setIfInBounds_same hget _ rfl

theorem links_adopt {sel : Nat} {n : SearchNode σ α} (hn : s.nodes[sel]? = some n) {st : σ}
    (child n' : SearchNode σ α) (hn' : n'.link = ⟨st, n.parent, n.action⟩) :
    ((s.nodes.setIfInBounds sel { n with state := st }).push child |>.setIfInBounds sel n').map link =
      (s.links.setIfInBounds sel ⟨st, n.parent, n.action⟩).push child.link := by
  have hsel : sel < s.nodes.size := (Array.getElem?_eq_some_iff.1 hn).1
  refine Array.ext_getElem? fun k => ?_
  simp only [Array.getElem?_map, Array.getElem?_setIfInBounds, Array.getElem?_push, Array.size_push,
    Array.size_setIfInBounds, size_links, getElem?_links]
  simp only [link, Link.mk.injEq] at hn'
  by_cases hk : sel = k
  · subst hk
    simp [hsel, Nat.ne_of_lt hsel, Nat.lt_succ_of_lt hsel, hn', link]
  · by_cases hks : k = s.nodes.size
    · simp [hks, Nat.ne_of_lt hsel]
    · simp [hk, hks]

theorem links_expand [EnvironmentState σ α] [ToString α] {sel : Nat} {r : Option Nat}
    (h : Runs (expand sel) s w r s' w') :
    (s'.links = s.links ∧ (r = some sel ∨ r = none)) ∨
    ∃ n a st, s.nodes[sel]? = some n ∧ nextAction n.state 0 = some (a, st) ∧
      ((∃ w₁, (perform st a : Work (Option σ)).run.run w = (.ok none, w₁)) ∧ r = none ∧
          s'.links = s.links.setIfInBounds sel ⟨st, n.parent, n.action⟩ ∨
        ∃ c w₁, (perform st a : Work (Option σ)).run.run w = (.ok (some c), w₁) ∧
          r = some s.nodes.size ∧
          s'.links = (s.links.setIfInBounds sel ⟨st, n.parent, n.action⟩).push ⟨c, some sel, some a⟩) := by
  unfold expand at h
  obtain ⟨n, s₁, w₁, hn, h⟩ := runs_bind.1 h
  obtain ⟨hget, h₁, h₂⟩ := runs_node.1 hn
  subst s₁ w₁
  split at h
  · -- never visited, or nothing left to try: the node itself is valued
    obtain ⟨rfl, rfl, -⟩ := runs_pure.1 h
    exact .inl ⟨rfl, .inl rfl⟩
  · split at h
    · rename_i action state _
      refine .inr ⟨n, action, state, hget, ‹_›, ?_⟩
      -- the node gives up its next action
      obtain ⟨_, s₂, w₂, hset, h⟩ := runs_bind.1 h
      obtain ⟨hs₂, hw₂⟩ := runs_setNode.1 hset
      subst w₂
      obtain ⟨res, s₃, w₃, hperform, h⟩ := runs_bind.1 h
      obtain ⟨hrun, h₃⟩ := runs_lift.1 hperform
      subst s₃
      split at h
      · rename_i child
        -- the action was taken: the child is pushed and listed at `sel`
        obtain ⟨g, s₄, w₄, hg, h⟩ := runs_bind.1 h
        obtain ⟨hg₁, hg₂, hg₃⟩ := runs_get.1 hg
        subst g s₄ w₄
        obtain ⟨_, s₅, w₅, hm, h⟩ := runs_bind.1 h
        obtain ⟨hm₁, hm₂⟩ := runs_modify.1 hm
        subst s₅ w₅
        obtain ⟨_, s₆, w₆, hs, h⟩ := runs_bind.1 h
        obtain ⟨hl₁, hl₂⟩ := runs_setNode.1 hs
        subst s₆ w₆
        obtain ⟨hr, hs', -⟩ := runs_pure.1 h
        subst hs'
        refine .inr ⟨child, w₃, hrun, ?_, ?_⟩
        · rw [← hr, hs₂, Array.size_setIfInBounds]
        · rw [links, hs₂]
          exact links_adopt hget _ _ rfl
      · -- the action was refused
        obtain ⟨_, s₄, w₄, hnote, h⟩ := runs_bind.1 h
        obtain ⟨-, h₄⟩ := runs_lift.1 hnote
        subst s₄
        obtain ⟨rfl, rfl, -⟩ := runs_pure.1 h
        refine .inl ⟨⟨w₃, hrun⟩, rfl, ?_⟩
        rw [hs₂, links, Array.map_setIfInBounds]
        rfl
    · obtain ⟨rfl, rfl, -⟩ := runs_pure.1 h
      exact .inl ⟨rfl, .inr rfl⟩

theorem links_simulate [EnvironmentState σ α] {id : Nat} {v : Double} (h : Runs (simulate id) s w v s' w') :
    ∃ n st, s.nodes[id]? = some n ∧ (rollOut n.state : Work (Double × σ)).run.run w = (.ok (v, st), w') ∧
      s'.links = s.links.setIfInBounds id ⟨st, n.parent, n.action⟩ := by
  unfold simulate at h
  obtain ⟨n, s₁, w₁, hn, h⟩ := runs_bind.1 h
  obtain ⟨hget, h₁, h₂⟩ := runs_node.1 hn
  subst s₁ w₁
  obtain ⟨⟨u, st⟩, s₂, w₂, hlift, h⟩ := runs_bind.1 h
  obtain ⟨hrun, h₂⟩ := runs_lift.1 hlift
  subst s₂
  dsimp only at h
  obtain ⟨_, s₃, w₃, hset, h⟩ := runs_bind.1 h
  obtain ⟨hs₃, hw₃⟩ := runs_setNode.1 hset
  subst s₃ w₃
  obtain ⟨_, s₄, w₄, hm, h⟩ := runs_bind.1 h
  obtain ⟨hs₄, hw₄⟩ := runs_modify.1 hm
  subst s₄ w₄
  obtain ⟨g, s₅, w₅, hg, h⟩ := runs_bind.1 h
  obtain ⟨hg₁, hg₂, hg₃⟩ := runs_get.1 hg
  subst g s₅ w₅
  -- keeping the best changes no node
  split at h
  · obtain ⟨_, s₆, w₆, hm, h⟩ := runs_bind.1 h
    obtain ⟨hs₆, hw₆⟩ := runs_modify.1 hm
    subst s₆ w₆
    obtain ⟨rfl, rfl, rfl⟩ := runs_pure.1 h
    refine ⟨n, st, hget, hrun, ?_⟩
    simp only [links, Array.map_setIfInBounds]
    rfl
  · obtain ⟨rfl, rfl, rfl⟩ := runs_pure.1 h
    refine ⟨n, st, hget, hrun, ?_⟩
    simp only [links, Array.map_setIfInBounds]
    rfl

theorem links_iterate [EnvironmentState σ α] [ToString α] {i : Nat} {r : Option (Nat × Double)}
    (h : Runs (iterate i) s w r s' w') :
    ∃ sel t w₀ res u w₁, Runs select s w sel t w₀ ∧ Runs (expand sel) t w₀ res u w₁ ∧
      (res = none ∧ r = none ∧ s'.links = u.links ∨
        ∃ id v u' w₂, res = some id ∧ Runs (simulate id) u w₁ v u' w₂ ∧ r = some (id, v) ∧
          s'.links = u'.links) := by
  unfold iterate at h
  obtain ⟨sel, t, v₀, hselect, h⟩ := runs_bind.1 h
  obtain ⟨res, u, w₁, hexp, h⟩ := runs_bind.1 h
  refine ⟨sel, t, v₀, res, u, w₁, hselect, hexp, ?_⟩
  split at h
  · -- the expansion was refused: nothing is simulated
    obtain ⟨_, u₁, w₂, hnote, h⟩ := runs_bind.1 h
    obtain ⟨-, h₁⟩ := runs_lift.1 hnote
    subst u₁
    obtain ⟨rfl, rfl, -⟩ := runs_pure.1 h
    exact .inl ⟨rfl, rfl, rfl⟩
  · rename_i id
    obtain ⟨v, u₁, w₂, hsim, h⟩ := runs_bind.1 h
    obtain ⟨_, u₂, w₃, hnote, h⟩ := runs_bind.1 h
    obtain ⟨-, h₂⟩ := runs_lift.1 hnote
    subst u₂
    obtain ⟨g, u₃, w₄, hg, h⟩ := runs_bind.1 h
    obtain ⟨hg₁, hg₂, hg₃⟩ := runs_get.1 hg
    subst g u₃ w₄
    obtain ⟨_, u₄, w₅, hb, h⟩ := runs_bind.1 h
    obtain ⟨rfl, rfl, -⟩ := runs_pure.1 h
    exact .inr ⟨id, v, u₁, w₂, rfl, hsim, rfl, links_backpropagate hb⟩

theorem runs_select_of_childless [EnvironmentState σ α] {n : SearchNode σ α} (hn : s.nodes[0]? = some n)
    (hc : n.children = []) {sel : Nat} (h : Runs select s w sel s' w') : sel = 0 ∧ s' = s ∧ w' = w := by
  unfold select at h
  obtain ⟨g, s₁, w₁, hg, hfrom⟩ := runs_bind.1 h
  obtain ⟨rfl, rfl, rfl⟩ := runs_get.1 hg
  rw [selectFrom] at hfrom
  obtain ⟨m, s₂, w₂, hm, hrest⟩ := runs_bind.1 hfrom
  obtain ⟨hget, rfl, rfl⟩ := runs_node.1 hm
  rw [hn] at hget
  cases hget
  rw [hc] at hrest
  obtain ⟨rfl, rfl, rfl⟩ := runs_pure.1 (by simpa using hrest)
  exact ⟨rfl, rfl, rfl⟩

theorem runs_expand_of_unvisited [EnvironmentState σ α] [ToString α] {sel : Nat} {n : SearchNode σ α}
    (hn : s.nodes[sel]? = some n) (hv : n.visits = 0) {r : Option Nat} (h : Runs (expand sel) s w r s' w') :
    r = some sel ∧ s' = s ∧ w' = w := by
  unfold expand at h
  obtain ⟨m, s₁, w₁, hm, h⟩ := runs_bind.1 h
  obtain ⟨hget, h₁, h₂⟩ := runs_node.1 hm
  subst s₁ w₁
  rw [hn] at hget
  cases hget
  rw [if_pos (by simp [hv])] at h
  obtain ⟨rfl, rfl, rfl⟩ := runs_pure.1 h
  exact ⟨rfl, rfl, rfl⟩

theorem links_iterate_of_fresh [EnvironmentState σ α] [ToString α] {n : SearchNode σ α}
    (hn : s.nodes[0]? = some n) (hc : n.children = []) (hv : n.visits = 0) {i : Nat}
    {r : Option (Nat × Double)} (h : Runs (iterate i) s w r s' w') :
    ∃ v st w₁, (rollOut n.state : Work (Double × σ)).run.run w = (.ok (v, st), w₁) ∧ r = some (0, v) ∧
      s'.links = s.links.setIfInBounds 0 ⟨st, n.parent, n.action⟩ := by
  obtain ⟨sel, t, w₀, res, u, w₁, hsel, hexp, hrest⟩ := links_iterate h
  obtain ⟨rfl, rfl, rfl⟩ := runs_select_of_childless hn hc hsel
  obtain ⟨rfl, rfl, rfl⟩ := runs_expand_of_unvisited hn hv hexp
  rcases hrest with ⟨h', -⟩ | ⟨id, v, u', w₂, hid, hsim, rfl, hlinks⟩
  · cases h'
  · cases hid
    obtain ⟨m, st, hget, hrun, hl⟩ := links_simulate hsim
    rw [hn] at hget
    cases hget
    exact ⟨v, st, w₂, hrun, rfl, hlinks.trans hl⟩

theorem pathAux_eq (ht : s.tally.Shaped) :
    ∀ {f id : Nat} (acc : List α), (s.tally.ancestry id).length ≤ f →
      s.pathAux f (some id) acc = ((s.tally.ancestry id).reverse.filterMap fun j => s.nodes[j]?.bind (·.action)) ++ acc
  | 0, id, acc, hf => by
    rw [SearchTally.ancestry_eq] at hf
    simp at hf
  | f + 1, id, acc, hf => by
    have hstop : ∀ (g : Nat) (acc' : List α), s.pathAux g none acc' = acc' := by
      intro g acc'
      cases g <;> rfl
    cases hn : s.nodes[id]? with
    | none =>
      have hnone : s.tally.parentOf id = none := by simp [SearchTally.parentOf, hn]
      simp [pathAux, hn, SearchTally.ancestry_of_none hnone]
    | some n =>
      cases hp : n.parent with
      | none =>
        have hnone : s.tally.parentOf id = none := by simp [SearchTally.parentOf, hn, SearchNode.tally, hp]
        rw [SearchTally.ancestry_of_none hnone]
        simp only [pathAux, hn, hp, hstop]
        cases ha : n.action <;> simp [hn, ha]
      | some p =>
        have hpar : s.tally.parentOf id = some p := by simp [SearchTally.parentOf, hn, SearchNode.tally, hp]
        rw [ht.ancestry_of_parent hpar, List.length_cons] at hf
        simp only [pathAux, hn, hp]
        rw [pathAux_eq ht _ (by omega), ht.ancestry_of_parent hpar, List.reverse_cons, List.filterMap_append,
          List.append_assoc]
        cases ha : n.action <;> simp [hn, ha]

theorem path_eq (ht : s.tally.Shaped) (id : Nat) :
    s.path id = (s.tally.ancestry id).reverse.filterMap fun j => s.nodes[j]?.bind (·.action) := by
  rw [path, pathAux_eq ht [] ?_, List.append_nil]
  by_cases hid : id < s.nodes.size
  · have := SearchTally.length_ancestry_le s.tally id
    omega
  · have hnone : s.tally.parentOf id = none := by
      simp [SearchTally.parentOf, Array.getElem?_eq_none_iff.2 (Nat.le_of_not_lt hid)]
    simp [SearchTally.ancestry_of_none hnone]

end Searcher

end TileSched
