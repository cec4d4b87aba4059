import Mathlib
import TileSched.Search.Searcher
/-! Successful runs of a search step. `Runs x s w b s' w'` says that `x`, started with searcher `s`
and workspace `w`, returns `b` and leaves `s'` and `w'`. Selection only draws from the random
stream: it leaves the tree, the best value and the rollout count as they were. -/

namespace TileSched

namespace Searching

variable {σ α β γ : Type} {s s' s'' : Searcher σ α} {w w' w'' : Workspace}

def Runs (x : Searching σ α β) (s : Searcher σ α) (w : Workspace) (b : β) (s' : Searcher σ α)
    (w' : Workspace) : Prop :=
  @Eq (Except Error (β × Searcher σ α) × Workspace) ((x.run s).run.run w) (.ok (b, s'), w')

theorem runs_iff (x : Searching σ α β) (r : Except Error (β × Searcher σ α) × Workspace)
    (h : @Eq (Except Error (β × Searcher σ α) × Workspace) ((x.run s).run.run w) r) {b : β} :
    Runs x s w b s' w' ↔ r = (.ok (b, s'), w') := by
  rw [Runs, h]

theorem Runs.determ {x : Searching σ α β} {a b : β} {s₁ s₂ : Searcher σ α} {w₁ w₂ : Workspace}
    (h₁ : Runs x s w a s₁ w₁) (h₂ : Runs x s w b s₂ w₂) : a = b ∧ s₁ = s₂ ∧ w₁ = w₂ := by
  rw [Runs, h₁] at h₂
  simpa [and_assoc] using h₂

theorem runs_pure {a b : β} : Runs (pure a : Searching σ α β) s w b s' w' ↔ a = b ∧ s = s' ∧ w = w' := by
  rw [runs_iff (pure a) (.ok (a, s), w) rfl]
  simp [and_assoc]

theorem runs_bind {x : Searching σ α β} {f : β → Searching σ α γ} {c : γ} :
    Runs (x >>= f) s w c s'' w'' ↔ ∃ b s' w', Runs x s w b s' w' ∧ Runs (f b) s' w' c s'' w'' := by
  rcases h : (x.run s).run.run w with ⟨r, t⟩
  cases r with
  | error e =>
    have hb : @Eq (Except Error (γ × Searcher σ α) × Workspace) (((x >>= f).run s).run.run w) (.error e, t) := by
      rw [StateT.run_bind, ExceptT.run_bind, StateT.run_bind, h]
      rfl
    rw [runs_iff _ _ hb]
    simp [Runs, h]
  | ok a =>
    have hb : @Eq (Except Error (γ × Searcher σ α) × Workspace) (((x >>= f).run s).run.run w)
        (((f a.1).run a.2).run.run t) := by
      rw [StateT.run_bind, ExceptT.run_bind, StateT.run_bind, h]
      rfl
    rw [Runs, hb]
    constructor
    · intro h'
      exact ⟨a.1, a.2, t, by rw [Runs, h], h'⟩
    · rintro ⟨b, s', w', h₁, h₂⟩
      rw [Runs, h] at h₁
      simp only [Prod.mk.injEq, Except.ok.injEq] at h₁
      obtain ⟨rfl, rfl⟩ := h₁
      exact h₂

theorem not_runs_throw {e : Error} {b : β} : ¬ Runs (throw e : Searching σ α β) s w b s' w' := by
  rw [runs_iff (throw e) (.error e, w) rfl]
  simp

theorem runs_get {a : Searcher σ α} :
    Runs (get : Searching σ α (Searcher σ α)) s w a s' w' ↔ a = s ∧ s' = s ∧ w' = w := by
  rw [runs_iff get (.ok (s, s), w) rfl]
  simp [eq_comm, and_assoc]

theorem runs_modify {f : Searcher σ α → Searcher σ α} {u : PUnit} :
    Runs (modify f : Searching σ α PUnit) s w u s' w' ↔ s' = f s ∧ w' = w := by
  rw [runs_iff (modify f) (.ok (⟨⟩, f s), w) rfl]
  simp [eq_comm]

theorem runs_modifyGet {f : Searcher σ α → β × Searcher σ α} {b : β} :
    Runs (modifyGet f : Searching σ α β) s w b s' w' ↔ f s = (b, s') ∧ w' = w := by
  rw [runs_iff (modifyGet f) (.ok ((f s).1, (f s).2), w) rfl]
  simp [Prod.ext_iff, eq_comm]

theorem runs_lift {x : Work β} {b : β} :
    Runs (monadLift x : Searching σ α β) s w b s' w' ↔ x.run.run w = (.ok b, w') ∧ s' = s := by
  rcases h : x.run.run w with ⟨r, t⟩
  cases r with
  | error e =>
    rw [runs_iff (monadLift x) (.error e, t) (by
      change (ExceptT.run (StateT.lift x s)).run w = _
      simp only [StateT.lift, ExceptT.run_bind, StateT.run_bind, h]
      rfl)]
    constructor
    · intro h'
      simp at h'
    · rintro ⟨h', -⟩
      cases h'
  | ok a =>
    rw [runs_iff (monadLift x) (.ok (a, s), t) (by
      change (ExceptT.run (StateT.lift x s)).run w = _
      simp only [StateT.lift, ExceptT.run_bind, StateT.run_bind, h]
      rfl)]
    constructor
    · intro h'
      simp only [Prod.mk.injEq, Except.ok.injEq] at h'
      obtain ⟨⟨rfl, rfl⟩, rfl⟩ := h'
      exact ⟨rfl, rfl⟩
    · rintro ⟨h', rfl⟩
      cases h'
      rfl

theorem runs_mapM_cons {f : β → Searching σ α γ} {x : β} {xs : List β} {ys : List γ} :
    Runs ((x :: xs).mapM f) s w ys s'' w'' ↔
      ∃ y t v ys', Runs (f x) s w y t v ∧ Runs (xs.mapM f) t v ys' s'' w'' ∧ ys = y :: ys' := by
  simp only [List.mapM_cons, runs_bind, runs_pure]
  constructor
  · rintro ⟨y, t, v, hy, ys', t', v', hys, rfl, rfl, rfl⟩
    exact ⟨y, t, v, ys', hy, hys, rfl⟩
  · rintro ⟨y, t, v, ys', hy, hys, rfl⟩
    exact ⟨y, t, v, hy, ys', s'', w'', hys, rfl, rfl, rfl⟩

def Moves (R : Searcher σ α → Searcher σ α → Prop) (x : Searching σ α β) : Prop :=
  ∀ s w b s' w', Runs x s w b s' w' → R s s'

section Moves

variable {R : Searcher σ α → Searcher σ α → Prop}

theorem Moves.pure [Std.Refl R] (b : β) : Moves R (pure b : Searching σ α β) := fun s _ _ _ _ h => by
  obtain ⟨-, rfl, -⟩ := runs_pure.1 h
  exact Std.Refl.refl s

theorem Moves.bind [IsTrans (Searcher σ α) R] {x : Searching σ α β} {f : β → Searching σ α γ}
    (hx : Moves R x) (hf : ∀ b, Moves R (f b)) : Moves R (x >>= f) := fun _ _ _ _ _ h => by
  obtain ⟨b, t, v, h₁, h₂⟩ := runs_bind.1 h
  exact trans_of R (hx _ _ _ _ _ h₁) (hf b _ _ _ _ _ h₂)

theorem Moves.throw (e : Error) : Moves R (throw e : Searching σ α β) :=
  fun _ _ _ _ _ h => absurd h not_runs_throw

theorem Moves.get [Std.Refl R] : Moves R (get : Searching σ α (Searcher σ α)) := fun _ _ _ _ _ h => by
  obtain ⟨-, rfl, -⟩ := runs_get.1 h
  exact Std.Refl.refl _

theorem Moves.lift [Std.Refl R] (x : Work β) : Moves R (monadLift x : Searching σ α β) :=
  fun _ _ _ _ _ h => by
  obtain ⟨-, rfl⟩ := runs_lift.1 h
  exact Std.Refl.refl _

theorem Moves.mapM [Std.Refl R] [IsTrans (Searcher σ α) R] {f : β → Searching σ α γ} :
    ∀ {xs : List β}, (∀ x ∈ xs, Moves R (f x)) → Moves R (xs.mapM f)
  | [], _ => by
    rw [List.mapM_nil]
    exact Moves.pure _
  | x :: xs, hf => by
    rw [List.mapM_cons]
    exact Moves.bind (hf x List.mem_cons_self) fun _ =>
      Moves.bind (Moves.mapM fun y hy => hf y (List.mem_cons_of_mem _ hy)) fun _ => Moves.pure _

end Moves

end Searching

namespace Searcher

open Searching

variable {σ α : Type} {s s' : Searcher σ α} {w w' : Workspace}

structure SameTree (s s' : Searcher σ α) : Prop where
  nodes : s'.nodes = s.nodes
  bestValue : s'.bestValue = s.bestValue
  bestNode : s'.bestNode = s.bestNode
  rollouts : s'.rollouts = s.rollouts

namespace SameTree

theorem refl (s : Searcher σ α) : SameTree s s := ⟨rfl, rfl, rfl, rfl⟩

theorem trans {a b c : Searcher σ α} (h₁ : SameTree a b) (h₂ : SameTree b c) : SameTree a c :=
  ⟨h₂.nodes.trans h₁.nodes, h₂.bestValue.trans h₁.bestValue, h₂.bestNode.trans h₁.bestNode,
    h₂.rollouts.trans h₁.rollouts⟩

instance : Std.Refl (SameTree (σ := σ) (α := α)) := ⟨refl⟩

instance : IsTrans (Searcher σ α) SameTree := ⟨fun _ _ _ => trans⟩

end SameTree

theorem runs_node {i : Nat} {n : SearchNode σ α} :
    Runs (node i) s w n s' w' ↔ s.nodes[i]? = some n ∧ s' = s ∧ w' = w := by
  unfold node
  simp only [runs_bind, runs_get, entryAt]
  constructor
  · rintro ⟨a, t, v, ⟨ha, ht, hv⟩, h⟩
    subst a t v
    cases hn : s.nodes[i]? with
    | none =>
      simp only [hn] at h
      exact absurd h not_runs_throw
    | some x =>
      simp only [hn] at h
      obtain ⟨rfl, h₁, h₂⟩ := runs_pure.1 h
      exact ⟨rfl, h₁.symm, h₂.symm⟩
  · rintro ⟨hn, h₁, h₂⟩
    subst h₁ h₂
    refine ⟨_, _, _, ⟨rfl, rfl, rfl⟩, ?_⟩
    simp only [hn]
    exact runs_pure.2 ⟨rfl, rfl, rfl⟩

theorem runs_setNode {i : Nat} {n : SearchNode σ α} {u : Unit} :
    Runs (setNode i n) s w u s' w' ↔ s' = { s with nodes := s.nodes.setIfInBounds i n } ∧ w' = w :=
  runs_modify

theorem moves_node (i : Nat) : Moves SameTree (node i : Searching σ α (SearchNode σ α)) :=
  fun _ _ _ _ _ h => by
  obtain ⟨-, rfl, -⟩ := runs_node.1 h
  exact SameTree.refl _

theorem moves_draw (k : Nat) : Moves SameTree (draw k : Searching σ α Nat) := by
  unfold draw
  refine Moves.bind (R := SameTree) Moves.get fun t => ?_
  refine Moves.bind (R := SameTree) (fun _ _ _ _ _ h => ?_) fun _ => Moves.pure _
  obtain ⟨rfl, -⟩ := runs_modify.1 h
  exact ⟨rfl, rfl, rfl, rfl⟩

theorem moves_selectChild (id : Nat) : Moves SameTree (selectChild id : Searching σ α Nat) := by
  unfold selectChild
  refine Moves.bind (R := SameTree) (moves_node id) fun n => Moves.bind (R := SameTree) Moves.get fun t => ?_
  refine Moves.bind (R := SameTree) (Moves.mapM fun c _ => Moves.bind (R := SameTree) (moves_node c) fun _ => Moves.pure _) fun _ => ?_
  -- the pick, by votes or uniformly, then the child at it
  dsimp only
  split
  · refine Moves.bind (R := SameTree) (moves_draw _) fun pick => ?_
    split
    · exact Moves.pure _
    · exact Moves.throw _
  · refine Moves.bind (R := SameTree) (moves_draw _) fun _ => Moves.bind (R := SameTree) (Moves.pure _) fun pick => ?_
    split
    · exact Moves.pure _
    · exact Moves.throw _

theorem moves_selectFrom [EnvironmentState σ α] :
    ∀ (f id : Nat), Moves SameTree (selectFrom f id : Searching σ α Nat)
  | 0, _ => Moves.pure _
  | f + 1, id => by
    unfold selectFrom
    refine Moves.bind (R := SameTree) (moves_node id) fun n => ?_
    split
    · exact Moves.bind (R := SameTree) (moves_selectChild id) fun c => moves_selectFrom f c
    · exact Moves.pure _

theorem moves_select [EnvironmentState σ α] : Moves SameTree (select : Searching σ α Nat) :=
  Moves.bind (R := SameTree) Moves.get fun _ => moves_selectFrom _ 0

end Searcher

end TileSched
