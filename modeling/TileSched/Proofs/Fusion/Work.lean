import Mathlib
import TileSched.Fusion.Evaluate
/-! Successful runs of graph-level work. `Work.Runs x w b w'` says that `x`, started in workspace
`w`, returns `b` and leaves `w'`; a run of a sequence is a run of each of its parts, and a step
that ran can be replaced by its result. An attempt never fails: it gives what the work it tries
gave, failure included. Solving a graph sums its trees' objectives by saturating addition. -/

namespace TileSched

namespace Work

variable {β γ : Type} {w w' w'' : Workspace}

def Runs (x : Work β) (w : Workspace) (b : β) (w' : Workspace) : Prop :=
  @Eq (Except Error β × Workspace) (x.run.run w) (.ok b, w')

theorem run_bind (x : Work β) (f : β → Work γ) (w : Workspace) :
    (x >>= f).run.run w = match x.run.run w with
      | (.ok b, w') => (f b).run.run w'
      | (.error e, w') => (.error e, w') := by
  rcases h : x.run.run w with ⟨r, t⟩
  rw [ExceptT.run_bind, StateT.run_bind, h]
  cases r <;> rfl

theorem runs_iff (x : Work β) (r : Except Error β × Workspace) (h : x.run.run w = r) {b : β} :
    Runs x w b w' ↔ r = (.ok b, w') := by
  rw [Runs, h]

theorem run_bind_of_runs {x : Work β} {f : β → Work γ} {b : β} (h : Runs x w b w') :
    (x >>= f).run.run w = (f b).run.run w' := by
  rw [run_bind]
  rw [Runs] at h
  rw [h]

theorem runs_bind {x : Work β} {f : β → Work γ} {c : γ} :
    Runs (x >>= f) w c w'' ↔ ∃ b w', Runs x w b w' ∧ Runs (f b) w' c w'' := by
  rcases h : x.run.run w with ⟨r, t⟩
  cases r with
  | error e =>
    rw [Runs, run_bind, h]
    simp [Runs, h]
  | ok b =>
    rw [Runs, run_bind_of_runs h]
    constructor
    · intro h'
      exact ⟨b, t, h, h'⟩
    · rintro ⟨b', t', h₁, h₂⟩
      rw [Runs, h] at h₁
      simp only [Prod.mk.injEq, Except.ok.injEq] at h₁
      obtain ⟨rfl, rfl⟩ := h₁
      exact h₂

theorem Runs.determ {x : Work β} {a b : β} {w₁ w₂ : Workspace} (h₁ : Runs x w a w₁) (h₂ : Runs x w b w₂) :
    a = b ∧ w₁ = w₂ := by
  rw [Runs, h₁] at h₂
  simpa using h₂

theorem runs_pure {a b : β} : Runs (pure a : Work β) w b w' ↔ a = b ∧ w = w' := by
  rw [runs_iff (pure a) (.ok a, w) rfl]
  simp

theorem not_runs_throw {e : Error} {b : β} : ¬ Runs (throw e : Work β) w b w' := by
  rw [runs_iff (throw e) (.error e, w) rfl]
  simp

theorem runs_lift {r : Outcome β} {b : β} : Runs (lift r) w b w' ↔ r = .ok b ∧ w' = w := by
  unfold lift
  cases r with
  | ok a => simp [runs_pure, eq_comm]
  | error e => simp [not_runs_throw]

theorem runs_get {a : Workspace} : Runs (get : Work Workspace) w a w' ↔ a = w ∧ w' = w := by
  rw [runs_iff get (.ok w, w) rfl]
  simp [eq_comm]

theorem runs_modify {f : Workspace → Workspace} {u : PUnit} :
    Runs (modify f : Work PUnit) w u w' ↔ w' = f w := by
  rw [runs_iff (modify f) (.ok ⟨⟩, f w) rfl]
  simp [eq_comm]

theorem run_attempt (x : Work β) (w : Workspace) :
    (attempt x).run.run w = (.ok (x.run.run w).1, (x.run.run w).2) := by
  rcases h : x.run.run w with ⟨r, t⟩
  have h' : StateT.run x w = (r, t) := h
  unfold attempt
  simp only [tryCatch, tryCatchThe, MonadExceptOf.tryCatch, ExceptT.tryCatch, Functor.map, ExceptT.map,
    ExceptT.mk, ExceptT.run]
  rw [StateT.run_bind, StateT.run_bind, h']
  cases r <;> rfl

theorem runs_get_note_pure {level : LogLevel} {source : String} {message : Workspace → String}
    {f : Workspace → β} {b : β}
    (h : Runs (do let ws ← get; note level source (message ws); pure (f ws)) w b w') : ∃ ws, b = f ws := by
  obtain ⟨ws, w₁, -, h₁⟩ := runs_bind.1 h
  obtain ⟨_, w₂, -, h₂⟩ := runs_bind.1 h₁
  exact ⟨ws, (runs_pure.1 h₂).1.symm⟩

theorem runs_foldlM_inv {δ : Type} (P : β → Prop) {f : β → δ → Work β}
    (hf : ∀ b x b' w w', P b → Runs (f b x) w b' w' → P b') :
    ∀ (xs : List δ) {init b : β} {w w' : Workspace}, P init → Runs (xs.foldlM f init) w b w' → P b
  | [], init, b, w, w', hi, h => by
    obtain ⟨rfl, -⟩ := runs_pure.1 h
    exact hi
  | x :: xs, init, b, w, w', hi, h => by
    rw [List.foldlM_cons] at h
    obtain ⟨b₁, w₁, h₁, h₂⟩ := runs_bind.1 h
    exact runs_foldlM_inv P hf xs (hf init x b₁ w w₁ hi h₁) h₂

end Work

theorem solveGraph_objective {tg : TileGraph} {target : Target} {budget : Budget} {sol : GraphSolution}
    {w w' : Workspace} (h : Work.Runs (solveGraph tg target budget) w sol w') :
    sol.objective = (sol.trees.map (·.objective)).foldl I64.satAdd 0 := by
  unfold solveGraph at h
  obtain ⟨tops, w₁, -, h⟩ := Work.runs_bind.1 h
  obtain ⟨⟨trees, objective⟩, w₂, hfold, h⟩ := Work.runs_bind.1 h
  obtain ⟨rfl, -⟩ := Work.runs_pure.1 h
  -- the running pair keeps its sum equal to the fold of its trees
  refine Work.runs_foldlM_inv (fun acc : List SolvedTree × Int => acc.2 = (acc.1.map (·.objective)).foldl I64.satAdd 0)
    ?_ tops (by rfl) hfold
  rintro ⟨ts, o⟩ top b' w₃ w₄ hsum hstep
  obtain ⟨t, w₅, -, hstep⟩ := Work.runs_bind.1 hstep
  obtain ⟨s, w₆, -, hstep⟩ := Work.runs_bind.1 hstep
  obtain ⟨rfl, -⟩ := Work.runs_pure.1 hstep
  simp only at hsum ⊢
  rw [List.map_append, List.foldl_append, ← hsum]
  rfl

end TileSched
