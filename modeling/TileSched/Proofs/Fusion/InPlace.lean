import Mathlib
import TileSched.Fusion.TileGraph
import TileSched.Proofs.Results
/-! Merges edit a tile tree in place. `TreeEdit.Runs x t a t'` says that `x`, started on tree `t`,
returns `a` and leaves `t'`. An edit is atomic when a rejection leaves the tree as it was: so is
one that reads the tree up to its last check and whose later steps cannot be rejected. A merge is
such an edit. A merge of a tile graph edits a copy of the graph's tree and keeps the rest. -/

namespace TileSched

namespace TreeEdit

variable {α β : Type} {t t' t'' : TileTree}

def Runs (x : TreeEdit α) (t : TileTree) (a : α) (t' : TileTree) : Prop :=
  @Eq (Except Error α × TileTree) (x.run.run t) (.ok a, t')

theorem run_bind (x : TreeEdit α) (f : α → TreeEdit β) (t : TileTree) :
    (x >>= f).run.run t = match x.run.run t with
      | (.ok a, t') => (f a).run.run t'
      | (.error e, t') => (.error e, t') := by
  rcases h : x.run.run t with ⟨r, t'⟩
  rw [ExceptT.run_bind, StateT.run_bind, h]
  cases r <;> rfl

theorem runs_iff (x : TreeEdit α) (r : Except Error α × TileTree)
    (h : @Eq (Except Error α × TileTree) (x.run.run t) r) {a : α} :
    Runs x t a t' ↔ r = (.ok a, t') := by
  rw [Runs, h]

theorem runs_bind {x : TreeEdit α} {f : α → TreeEdit β} {b : β} :
    Runs (x >>= f) t b t'' ↔ ∃ a t', Runs x t a t' ∧ Runs (f a) t' b t'' := by
  rcases h : x.run.run t with ⟨r, t₁⟩
  cases r with
  | error e =>
    rw [runs_iff _ (.error e, t₁) (by rw [run_bind, h])]
    simp [Runs, h]
  | ok a =>
    rw [Runs, run_bind, h]
    constructor
    · intro h'
      exact ⟨a, t₁, h, h'⟩
    · rintro ⟨a', t', h₁, h₂⟩
      rw [Runs, h] at h₁
      simp only [Prod.mk.injEq, Except.ok.injEq] at h₁
      obtain ⟨rfl, rfl⟩ := h₁
      exact h₂

theorem runs_pure {a b : α} : Runs (pure a : TreeEdit α) t b t' ↔ a = b ∧ t = t' := by
  rw [runs_iff (pure a) (.ok a, t) rfl]
  simp

theorem not_runs_throw {e : Error} {a : α} : ¬ Runs (throw e : TreeEdit α) t a t' := by
  rw [runs_iff (throw e) (.error e, t) rfl]
  simp

theorem runs_lift {r : Outcome α} {a : α} : Runs (lift r) t a t' ↔ r = .ok a ∧ t' = t := by
  unfold lift
  cases r with
  | ok b => simp [runs_pure, eq_comm]
  | error e => simp [not_runs_throw]

theorem runs_get {a : TileTree} : Runs (get : TreeEdit TileTree) t a t' ↔ a = t ∧ t' = t := by
  rw [runs_iff get (.ok t, t) rfl]
  simp [eq_comm]

theorem runs_modify {f : TileTree → TileTree} {u : PUnit} :
    Runs (modify f : TreeEdit PUnit) t u t' ↔ t' = f t := by
  rw [runs_iff (modify f) (.ok ⟨⟩, f t) rfl]
  simp [eq_comm]

theorem runs_modifyGet {f : TileTree → α × TileTree} {a : α} :
    Runs (modifyGet f : TreeEdit α) t a t' ↔ f t = (a, t') := by
  rw [runs_iff (modifyGet f) (.ok (f t).1, (f t).2) rfl]
  simp [Prod.ext_iff]

theorem runs_get_bind {f : TileTree → TreeEdit β} {b : β} :
    Runs (get >>= f) t b t' ↔ Runs (f t) t b t' := by
  simp only [runs_bind, runs_get]
  constructor
  · rintro ⟨_, _, ⟨rfl, rfl⟩, h⟩
    exact h
  · intro h
    exact ⟨t, t, ⟨rfl, rfl⟩, h⟩

theorem runs_lift_bind {r : Outcome α} {f : α → TreeEdit β} {b : β} :
    Runs (lift r >>= f) t b t' ↔ ∃ a, r = .ok a ∧ Runs (f a) t b t' := by
  simp only [runs_bind, runs_lift]
  constructor
  · rintro ⟨a, _, ⟨hr, rfl⟩, h⟩
    exact ⟨a, hr, h⟩
  · rintro ⟨a, hr, h⟩
    exact ⟨a, t, ⟨hr, rfl⟩, h⟩

/-! Atomic edits. -/

def Reads (x : TreeEdit α) : Prop := ∀ t, (x.run.run t).2 = t

def Succeeds (x : TreeEdit α) : Prop := ∀ t, ∃ a, (x.run.run t).1 = .ok a

def Atomic (x : TreeEdit α) : Prop := ∀ t e, (x.run.run t).1 = .error e → (x.run.run t).2 = t

variable {x : TreeEdit α} {f : α → TreeEdit β}

theorem Reads.atomic (h : Reads x) : Atomic x := fun t _ _ => h t

theorem Succeeds.atomic (h : Succeeds x) : Atomic x := fun t e he => by
  obtain ⟨a, ha⟩ := h t
  rw [ha] at he
  nomatch he

theorem Atomic.bind_reads (hx : Reads x) (hf : ∀ a, Atomic (f a)) : Atomic (x >>= f) := by
  intro t e he
  rw [run_bind] at he ⊢
  rcases h : x.run.run t with ⟨r, t₁⟩
  have ht₁ : t₁ = t := by simpa [h] using hx t
  rw [h] at he
  cases r with
  | error e' => exact ht₁
  | ok a => exact ht₁ ▸ hf a t₁ e he

theorem Succeeds.bind (hx : Succeeds x) (hf : ∀ a, Succeeds (f a)) : Succeeds (x >>= f) := by
  intro t
  rcases h : x.run.run t with ⟨r, t₁⟩
  obtain ⟨a, ha⟩ := hx t
  rw [h] at ha
  subst ha
  obtain ⟨b, hb⟩ := hf a t₁
  exact ⟨b, by rw [run_bind, h]; exact hb⟩

theorem reads_get : Reads (get : TreeEdit TileTree) := fun _ => rfl

theorem reads_lift (r : Outcome α) : Reads (lift r) := fun _ => by
  unfold lift
  cases r <;> rfl

theorem reads_throw (e : Error) : Reads (throw e : TreeEdit α) := fun _ => rfl

theorem succeeds_modify (g : TileTree → TileTree) : Succeeds (modify g : TreeEdit PUnit) :=
  fun _ => ⟨⟨⟩, rfl⟩

theorem succeeds_modifyGet (g : TileTree → α × TileTree) : Succeeds (modifyGet g : TreeEdit α) :=
  fun t => ⟨(g t).1, rfl⟩

end TreeEdit

namespace MergePoint

open TreeEdit

theorem apply_atomic (mp : MergePoint) (g : Dataflow) : Atomic (mp.apply g) := by
  unfold MergePoint.apply
  refine .bind_reads reads_get fun t => ?_
  refine .bind_reads (reads_lift _) fun at_ => ?_
  refine .bind_reads (reads_lift _) fun relation => ?_
  refine .bind_reads (reads_lift _) fun k => ?_
  cases k with
  | tile yn =>
    refine .bind_reads (reads_lift _) fun fromX => ?_
    refine .bind_reads (reads_lift _) fun fromY => ?_
    exact ((succeeds_modifyGet _).bind fun merged => (succeeds_modify _).bind fun _ => succeeds_modify _).atomic
  | scope => exact (reads_throw _).atomic
  | leaf o => exact (reads_throw _).atomic

end MergePoint

namespace TileGraph

theorem merge_eq_ok {tg tg' : TileGraph} {mp : MergePoint} (h : tg.merge mp = .ok tg') :
    ∃ t', TreeEdit.Runs (mp.apply tg.dataflow) tg.tree () t' ∧ tg' = { tg with tree := t' } := by
  unfold merge at h
  rcases hrun : (mp.apply tg.dataflow).run.run tg.tree with ⟨r, t'⟩
  rw [Id.run, hrun] at h
  cases r with
  | ok u => exact ⟨t', hrun, (Except.ok.inj h).symm⟩
  | error e => nomatch h

end TileGraph

/-- A rejected merge leaves the tree exactly as it was, whatever the tree, the dataflow graph and
the merge point. A merge of a tile graph edits a copy of its tree: the graph it gives has the
tree the edit leaves, and the dataflow graph and top level of the graph it was given. -/
theorem merge_rejected_keeps_tree :
    (∀ (mp : MergePoint) (g : Dataflow) (t : TileTree) (e : Error),
      ((mp.apply g).run.run t).1 = .error e → ((mp.apply g).run.run t).2 = t) ∧
    ∀ (tg tg' : TileGraph) (mp : MergePoint), tg.merge mp = .ok tg' →
      tg'.dataflow = tg.dataflow ∧ tg'.topLevel = tg.topLevel ∧
        tg'.tree = ((mp.apply tg.dataflow).run.run tg.tree).2 := by
  refine ⟨fun mp g t e he => mp.apply_atomic g t e he, fun tg tg' mp h => ?_⟩
  obtain ⟨t', hrun, rfl⟩ := TileGraph.merge_eq_ok h
  refine ⟨rfl, rfl, ?_⟩
  rw [TreeEdit.Runs] at hrun
  rw [hrun]


def threeChain : Dataflow :=
  let (g, a) := Dataflow.addElementwise { name := "chain" } "op0" [16, 16] [none]
  let (g, b) := g.addElementwise "op1" [16, 16] [some a]
  (g.addElementwise "op2" [16, 16] [some b]).1

def threeChainForest : TileTree := threeChain.ops.foldl (TileGraph.addChain 3) (.new .scope)

/-- Merging the first operation of the chain into the last at the top level is rejected, their
tiles not being adjacent, and the forest is kept. -/
theorem threeChain_skip_keeps_tree :
    (((⟨0, 2, 3⟩ : MergePoint).apply threeChain).run.run threeChainForest).1.toOption = none ∧
      (((⟨0, 2, 3⟩ : MergePoint).apply threeChain).run.run threeChainForest).2 = threeChainForest := by
  have h : (((⟨0, 2, 3⟩ : MergePoint).apply threeChain).run.run threeChainForest).1.toOption = none := by
    decide +kernel
  refine ⟨h, ?_⟩
  rcases hr : (((⟨0, 2, 3⟩ : MergePoint).apply threeChain).run.run threeChainForest).1 with e | u
  · exact merge_rejected_keeps_tree.1 _ _ _ e hr
  · rw [hr] at h
    nomatch h

end TileSched
