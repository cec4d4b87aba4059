import TileSched.Schedule.Solve
import TileSched.Proofs.Solver.Grows
/-! Successful runs of a solve step. `Runs x s a s'` says that `x`, started in `s`, returns `a`
and leaves `s'`; a run of a sequence is a run of each of its parts. A relation that every step of
a loop or walk moves the state along, and that is a preorder, holds between the ends of the whole
run; `Steady` is the one for steps that only add to the model. -/

namespace TileSched

namespace Solving

variable {α β : Type} {s s' s'' : SolveState}

def Runs (x : Solving α) (s : SolveState) (a : α) (s' : SolveState) : Prop :=
  @Eq (Except Error α × SolveState) (x.run.run s) (.ok a, s')

theorem runs_iff (x : Solving α) (r : Except Error α × SolveState)
    (h : @Eq (Except Error α × SolveState) (x.run.run s) r) {a : α} :
    Runs x s a s' ↔ r = (.ok a, s') := by
  rw [Runs, h]

theorem runs_pure {a b : α} : Runs (pure a : Solving α) s b s' ↔ a = b ∧ s = s' := by
  rw [runs_iff (pure a) (.ok a, s) rfl]
  simp

theorem runs_bind {x : Solving α} {f : α → Solving β} {b : β} :
    Runs (x >>= f) s b s'' ↔ ∃ a s', Runs x s a s' ∧ Runs (f a) s' b s'' := by
  rcases h : x.run.run s with ⟨r, t⟩
  cases r with
  | error e =>
    have hb : @Eq (Except Error β × SolveState) ((x >>= f).run.run s) (.error e, t) := by
      rw [ExceptT.run_bind, StateT.run_bind, h]
      rfl
    rw [runs_iff _ _ hb]
    simp [Runs, h]
  | ok a =>
    have hb : @Eq (Except Error β × SolveState) ((x >>= f).run.run s) ((f a).run.run t) := by
      rw [ExceptT.run_bind, StateT.run_bind, h]
      rfl
    rw [Runs, hb]
    simp [Runs, h]

theorem not_runs_throw {e : Error} {a : α} : ¬ Runs (throw e : Solving α) s a s' := by
  rw [runs_iff (throw e) (.error e, s) rfl]
  simp

theorem runs_get {a : SolveState} : Runs (get : Solving SolveState) s a s' ↔ a = s ∧ s' = s := by
  rw [runs_iff get (.ok s, s) rfl]
  simp [eq_comm]

theorem runs_set {t : SolveState} {u : PUnit} : Runs (set t : Solving PUnit) s u s' ↔ s' = t := by
  rw [runs_iff (set t) (.ok ⟨⟩, t) rfl]
  simp [eq_comm]

theorem runs_modify {f : SolveState → SolveState} {u : PUnit} :
    Runs (modify f : Solving PUnit) s u s' ↔ s' = f s := by
  rw [runs_iff (modify f) (.ok ⟨⟩, f s) rfl]
  simp [eq_comm]

theorem runs_modifyGet {f : SolveState → α × SolveState} {a : α} :
    Runs (modifyGet f : Solving α) s a s' ↔ f s = (a, s') := by
  rw [runs_iff (modifyGet f) (.ok (f s).1, (f s).2) rfl]
  simp [Prod.ext_iff]

theorem runs_tree {r : Except Fault α} {a : α} : Runs (tree r) s a s' ↔ r = .ok a ∧ s' = s := by
  unfold tree
  split
  · rw [runs_pure]
    simp [eq_comm]
  · simp [not_runs_throw]

theorem runs_lift {r : Outcome α} {a : α} : Runs (lift r) s a s' ↔ r = .ok a ∧ s' = s := by
  unfold lift
  split
  · rw [runs_pure]
    simp [eq_comm]
  · simp [not_runs_throw]

theorem runs_build {f : Model → Model × Nat} {e : Nat} :
    Runs (build f) s e s' ↔ (f s.model).2 = e ∧ s' = { s with model := (f s.model).1 } := by
  unfold build
  rw [runs_modifyGet]
  simp [eq_comm]

theorem runs_buildChecked {f : Model → Except Fault (Model × Nat)} {e : Nat} :
    Runs (buildChecked f) s e s' ↔ ∃ m, f s.model = .ok (m, e) ∧ s' = { s with model := m } := by
  unfold buildChecked
  simp only [runs_bind, runs_get]
  constructor
  · rintro ⟨_, _, ⟨rfl, rfl⟩, h⟩
    split at h
    · obtain ⟨_, _, h₁, h₂⟩ := runs_bind.1 h
      obtain ⟨rfl, rfl⟩ := runs_pure.1 h₂
      exact ⟨_, ‹_›, runs_modify.1 h₁⟩
    · exact absurd h not_runs_throw
  · rintro ⟨m, hm, rfl⟩
    refine ⟨s, s, ⟨rfl, rfl⟩, ?_⟩
    rw [hm]
    exact runs_bind.2 ⟨⟨⟩, _, runs_modify.2 rfl, runs_pure.2 ⟨rfl, rfl⟩⟩

theorem runs_buildSolved {f : Model → Except SolveError (Model × Nat)} {e : Nat} :
    Runs (buildSolved f) s e s' ↔ ∃ m, f s.model = .ok (m, e) ∧ s' = { s with model := m } := by
  unfold buildSolved
  simp only [runs_bind, runs_get]
  constructor
  · rintro ⟨_, _, ⟨rfl, rfl⟩, h⟩
    split at h
    · obtain ⟨_, _, h₁, h₂⟩ := runs_bind.1 h
      obtain ⟨rfl, rfl⟩ := runs_pure.1 h₂
      exact ⟨_, ‹_›, runs_modify.1 h₁⟩
    · exact absurd h not_runs_throw
  · rintro ⟨m, hm, rfl⟩
    refine ⟨s, s, ⟨rfl, rfl⟩, ?_⟩
    rw [hm]
    exact runs_bind.2 ⟨⟨⟩, _, runs_modify.2 rfl, runs_pure.2 ⟨rfl, rfl⟩⟩

theorem runs_post {f : Model → Model} {u : Unit} :
    Runs (post f) s u s' ↔ s' = { s with model := f s.model } := runs_modify

theorem runs_record {level : LogLevel} {source message : String} {u : Unit} :
    Runs (record level source message) s u s' ↔ s' = { s with log := s.log.push ⟨level, source, message⟩ } :=
  runs_modify

theorem runs_memo {f : SolveMemo → SolveMemo} {u : Unit} :
    Runs (memo f) s u s' ↔ s' = { s with memo := f s.memo } := runs_modify

theorem runs_ite_bind {c : Prop} [Decidable c] {A : Solving PUnit} {J : PUnit → Solving β} {b : β} :
    Runs (if c then A >>= J else J ()) s b s' ↔ Runs ((if c then A else pure ()) >>= J) s b s' := by
  split
  · rfl
  · rw [runs_bind]
    constructor
    · intro h
      exact ⟨⟨⟩, s, runs_pure.2 ⟨rfl, rfl⟩, h⟩
    · rintro ⟨⟨⟩, t, ht, h⟩
      obtain ⟨-, rfl⟩ := runs_pure.1 ht
      exact h

def Moves (R : SolveState → SolveState → Prop) (x : Solving α) : Prop :=
  ∀ s a s', Runs x s a s' → R s s'

section Moves

variable {R : SolveState → SolveState → Prop}

theorem Moves.pure [Std.Refl R] (a : α) : Moves R (pure a : Solving α) := fun s _ _ h => by
  obtain ⟨-, rfl⟩ := runs_pure.1 h
  exact Std.Refl.refl s

theorem Moves.bind [IsTrans SolveState R] {x : Solving α} {f : α → Solving β} (hx : Moves R x) (hf : ∀ a, Moves R (f a)) :
    Moves R (x >>= f) := fun _ _ _ h => by
  obtain ⟨a, t, h₁, h₂⟩ := runs_bind.1 h
  exact trans_of R (hx _ _ _ h₁) (hf a _ _ _ h₂)

theorem Moves.throw (e : Error) : Moves R (throw e : Solving α) :=
  fun _ _ _ h => absurd h not_runs_throw

theorem Moves.get [Std.Refl R] : Moves R (get : Solving SolveState) := fun _ _ _ h => by
  obtain ⟨-, rfl⟩ := runs_get.1 h
  exact Std.Refl.refl _

theorem Moves.tree [Std.Refl R] (r : Except Fault α) : Moves R (tree r) := fun _ _ _ h => by
  obtain ⟨-, rfl⟩ := runs_tree.1 h
  exact Std.Refl.refl _

theorem Moves.lift [Std.Refl R] (r : Outcome α) : Moves R (lift r) := fun _ _ _ h => by
  obtain ⟨-, rfl⟩ := runs_lift.1 h
  exact Std.Refl.refl _

theorem Moves.mapM [Std.Refl R] [IsTrans SolveState R] {f : α → Solving β} :
    ∀ {xs : List α}, (∀ x ∈ xs, Moves R (f x)) → Moves R (xs.mapM f)
  | [], _ => by
    rw [List.mapM_nil]
    exact Moves.pure _
  | x :: xs, hf => by
    rw [List.mapM_cons]
    exact Moves.bind (hf x List.mem_cons_self) fun _ =>
      Moves.bind (Moves.mapM fun y hy => hf y (List.mem_cons_of_mem _ hy)) fun _ => Moves.pure _

theorem Moves.foldlM [Std.Refl R] [IsTrans SolveState R] {f : β → α → Solving β} :
    ∀ {xs : List α} (b : β), (∀ x ∈ xs, ∀ b, Moves R (f b x)) → Moves R (xs.foldlM f b)
  | [], b, _ => by
    rw [List.foldlM_nil]
    exact Moves.pure _
  | x :: xs, b, hf => by
    rw [List.foldlM_cons]
    exact Moves.bind (hf x List.mem_cons_self b) fun b' =>
      Moves.foldlM b' fun y hy => hf y (List.mem_cons_of_mem _ hy)

theorem Moves.forIn [Std.Refl R] [IsTrans SolveState R] {f : α → β → Solving (ForInStep β)} :
    ∀ {xs : List α} (b : β), (∀ x ∈ xs, ∀ b, Moves R (f x b)) → Moves R (forIn xs b f)
  | [], b, _ => by
    rw [List.forIn_nil]
    exact Moves.pure _
  | x :: xs, b, hf => by
    rw [List.forIn_cons]
    refine Moves.bind (hf x List.mem_cons_self b) fun step => ?_
    cases step with
    | done b' => exact Moves.pure _
    | yield b' => exact Moves.forIn b' fun y hy => hf y (List.mem_cons_of_mem _ hy)

theorem Moves.flatMapM [Std.Refl R] [IsTrans SolveState R] {f : α → Solving (List β)} :
    ∀ {xs : List α}, (∀ x ∈ xs, Moves R (f x)) → Moves R (xs.flatMapM f)
  | [], _ => by
    rw [List.flatMapM_nil]
    exact Moves.pure _
  | x :: xs, hf => by
    rw [List.flatMapM_cons]
    exact Moves.bind (hf x List.mem_cons_self) fun _ =>
      Moves.bind (Moves.flatMapM fun y hy => hf y (List.mem_cons_of_mem _ hy)) fun _ => Moves.pure _

theorem runs_forIn_inv {f : α → β → Solving (ForInStep β)} {J : List α → β → SolveState → Prop} :
    ∀ {xs : List α} (done : List α) {b r : β} {s s' : SolveState},
      (∀ x ∈ xs, ∀ done b t r t', J done b t → Runs (f x b) t r t' →
        ∃ b', r = .yield b' ∧ J (done ++ [x]) b' t') →
      J done b s → Runs (forIn xs b f) s r s' → J (done ++ xs) r s'
  | [], done, b, r, s, s', _, hJ, h => by
    rw [List.forIn_nil] at h
    obtain ⟨rfl, rfl⟩ := runs_pure.1 h
    simpa using hJ
  | x :: xs, done, b, r, s, s', hstep, hJ, h => by
    rw [List.forIn_cons] at h
    obtain ⟨step, t, h₁, h₂⟩ := runs_bind.1 h
    obtain ⟨b', rfl, hJ'⟩ := hstep x List.mem_cons_self done b s step t hJ h₁
    simpa using runs_forIn_inv _ (fun y hy => hstep y (List.mem_cons_of_mem _ hy)) hJ' h₂

theorem runs_flatMapM_cons {f : α → Solving (List β)} {x : α} {xs : List α} {ys : List β} :
    Runs ((x :: xs).flatMapM f) s ys s'' ↔
      ∃ y t ys', Runs (f x) s y t ∧ Runs (xs.flatMapM f) t ys' s'' ∧ ys = y ++ ys' := by
  simp only [List.flatMapM_cons, runs_bind, runs_pure]
  constructor
  · rintro ⟨y, t, hy, ys', t', hys, rfl, rfl⟩
    exact ⟨y, t, ys', hy, hys, rfl⟩
  · rintro ⟨y, t, ys', hy, hys, rfl⟩
    exact ⟨y, t, hy, ys', s'', hys, rfl, rfl⟩
theorem runs_mapM_cons {f : α → Solving β} {x : α} {xs : List α} {ys : List β} :
    Runs ((x :: xs).mapM f) s ys s'' ↔
      ∃ y t ys', Runs (f x) s y t ∧ Runs (xs.mapM f) t ys' s'' ∧ ys = y :: ys' := by
  simp only [List.mapM_cons, runs_bind, runs_pure]
  constructor
  · rintro ⟨y, t, hy, ys', t', hys, rfl, rfl⟩
    exact ⟨y, t, ys', hy, hys, rfl⟩
  · rintro ⟨y, t, ys', hy, hys, rfl⟩
    exact ⟨y, t, hy, ys', s'', hys, rfl, rfl⟩

theorem runs_mapM_length {f : α → Solving β} :
    ∀ {xs : List α} {ys : List β} {s s' : SolveState}, Runs (xs.mapM f) s ys s' → ys.length = xs.length
  | [], _, _, _, h => by
    rw [List.mapM_nil] at h
    obtain ⟨rfl, -⟩ := runs_pure.1 h
    rfl
  | _ :: _, _, _, _, h => by
    obtain ⟨y, t, ys', -, hrest, rfl⟩ := runs_mapM_cons.1 h
    simp [runs_mapM_length hrest]

theorem runs_mapM_post {f : α → Solving β} {Q : β → Prop} :
    ∀ {xs : List α}, (∀ x ∈ xs, ∀ t y t', Runs (f x) t y t' → Q y) →
      ∀ {ys : List β} {s s' : SolveState}, Runs (xs.mapM f) s ys s' → ∀ y ∈ ys, Q y
  | [], _, _, _, _, h => by
    rw [List.mapM_nil] at h
    obtain ⟨rfl, -⟩ := runs_pure.1 h
    exact fun _ hy => absurd hy List.not_mem_nil
  | x :: _, hf, _, _, _, h => by
    obtain ⟨y, t, ys', hy, hrest, rfl⟩ := runs_mapM_cons.1 h
    intro z hz
    rcases List.mem_cons.1 hz with rfl | hz
    · exact hf x List.mem_cons_self _ _ _ hy
    · exact runs_mapM_post (fun x' hx' => hf x' (List.mem_cons_of_mem _ hx')) hrest z hz

theorem runs_foldlM_inv {f : β → α → Solving β} (P : β → Prop) :
    ∀ {xs : List α} {b r : β} {s s' : SolveState}, Runs (xs.foldlM f b) s r s' → P b →
      (∀ x ∈ xs, ∀ b t r t', P b → Runs (f b x) t r t' → P r) → P r
  | [], _, _, _, _, h, hb, _ => by
    rw [List.foldlM_nil] at h
    obtain ⟨rfl, -⟩ := runs_pure.1 h
    exact hb
  | x :: _, b, _, s, _, h, hb, step => by
    rw [List.foldlM_cons] at h
    obtain ⟨b', t, h₁, h₂⟩ := runs_bind.1 h
    exact runs_foldlM_inv P h₂ (step x List.mem_cons_self b s b' t hb h₁)
      fun y hy => step y (List.mem_cons_of_mem _ hy)

theorem Moves.mapM_post [Std.Refl R] [IsTrans SolveState R] {f : α → Solving β}
    {I : SolveState → Prop} {Q : β → SolveState → Prop} (hI : ∀ t t', I t → R t t' → I t')
    (hQ : ∀ y t t', Q y t → R t t' → Q y t') :
    ∀ {xs : List α}, (∀ x ∈ xs, Moves R (f x)) →
      (∀ x ∈ xs, ∀ t y t', I t → Runs (f x) t y t' → Q y t') →
      ∀ {s ys s'}, Runs (xs.mapM f) s ys s' → R s s' ∧ (I s → ∀ y ∈ ys, Q y s')
  | [], _, _, _, _, _, h => by
    obtain ⟨rfl, rfl⟩ := runs_pure.1 h
    exact ⟨Std.Refl.refl _, fun _ _ hy => by cases hy⟩
  | x :: xs, hR, hf, s, ys, s', h => by
    obtain ⟨y₀, t, ys', h₀, hrest, rfl⟩ := runs_mapM_cons.1 h
    have hR₀ := hR x List.mem_cons_self _ _ _ h₀
    obtain ⟨hR₁, hQ₁⟩ := Moves.mapM_post hI hQ (fun z hz => hR z (List.mem_cons_of_mem _ hz))
      (fun z hz => hf z (List.mem_cons_of_mem _ hz)) hrest
    refine ⟨trans_of R hR₀ hR₁, fun hs y hy => ?_⟩
    rcases List.mem_cons.1 hy with rfl | hy
    · exact hQ _ _ _ (hf x List.mem_cons_self _ _ _ hs h₀) hR₁
    · exact hQ₁ (hI _ _ hs hR₀) y hy

theorem Moves.mapM_forall₂ [Std.Refl R] [IsTrans SolveState R] {f : α → Solving β}
    {I : SolveState → Prop} {Q : α → β → SolveState → Prop} (hI : ∀ t t', I t → R t t' → I t')
    (hQ : ∀ x y t t', Q x y t → R t t' → Q x y t') :
    ∀ {xs : List α}, (∀ x ∈ xs, Moves R (f x)) →
      (∀ x ∈ xs, ∀ t y t', I t → Runs (f x) t y t' → Q x y t') →
      ∀ {s ys s'}, Runs (xs.mapM f) s ys s' → R s s' ∧ (I s → List.Forall₂ (fun x y => Q x y s') xs ys)
  | [], _, _, _, _, _, h => by
    obtain ⟨rfl, rfl⟩ := runs_pure.1 h
    exact ⟨Std.Refl.refl _, fun _ => .nil⟩
  | x :: xs, hR, hf, s, ys, s', h => by
    obtain ⟨y₀, t, ys', h₀, hrest, rfl⟩ := runs_mapM_cons.1 h
    have hR₀ := hR x List.mem_cons_self _ _ _ h₀
    obtain ⟨hR₁, hQ₁⟩ := Moves.mapM_forall₂ hI hQ (fun z hz => hR z (List.mem_cons_of_mem _ hz))
      (fun z hz => hf z (List.mem_cons_of_mem _ hz)) hrest
    exact ⟨trans_of R hR₀ hR₁, fun hs =>
      .cons (hQ _ _ _ _ (hf x List.mem_cons_self _ _ _ hs h₀) hR₁) (hQ₁ (hI _ _ hs hR₀))⟩

end Moves

end Solving

def SolveState.VarDomains (s : SolveState) : Prop :=
  ∀ id d, s.memo.domain? id = some d → ∀ e ∈ d.tileVars, ∃ v, s.model.nodes[e]? = some (.var v)

theorem SolveState.VarDomains.of_grows {s s' : SolveState} (h : s.VarDomains) (hg : s.model.Grows s'.model)
    (hd : s'.memo.domains = s.memo.domains) : s'.VarDomains := by
  intro id d hid e he
  have hid' : s.memo.domain? id = some d := by simpa [SolveMemo.domain?, hd] using hid
  obtain ⟨v, hv⟩ := h id d hid' e he
  exact ⟨v, hg.nodes _ _ hv⟩

namespace Solving

/-- The model grows and stays built, the tile memo is unchanged, and the domain memo keeps
naming variables. -/
structure Steady (s s' : SolveState) : Prop where
  built : s.model.Built → s'.model.Built
  grows : s.model.Grows s'.model
  tiles : s'.memo.tiles = s.memo.tiles
  domains : s.VarDomains → s'.VarDomains

namespace Steady

theorem refl (s : SolveState) : Steady s s := ⟨id, Model.Grows.refl _, rfl, id⟩

theorem trans {a b c : SolveState} (h₁ : Steady a b) (h₂ : Steady b c) : Steady a c :=
  ⟨h₂.built ∘ h₁.built, h₁.grows.trans h₂.grows, h₂.tiles.trans h₁.tiles, h₂.domains ∘ h₁.domains⟩

instance : Std.Refl Steady := ⟨refl⟩

instance : IsTrans SolveState Steady := ⟨fun _ _ _ => trans⟩

theorem of_grows {s s' : SolveState} (hb : s.model.Built → s'.model.Built) (hg : s.model.Grows s'.model)
    (ht : s'.memo.tiles = s.memo.tiles) (hd : s'.memo.domains = s.memo.domains) : Steady s s' :=
  ⟨hb, hg, ht, fun h => h.of_grows hg hd⟩

theorem of_eq {s s' : SolveState} (hm : s'.model = s.model) (ht : s'.memo.tiles = s.memo.tiles)
    (hd : s'.memo.domains = s.memo.domains) : Steady s s' :=
  of_grows (fun h => hm ▸ h) (hm ▸ Model.Grows.refl _) ht hd

end Steady

structure Reads (s s' : SolveState) : Prop where
  model : s'.model = s.model
  tiles : s'.memo.tiles = s.memo.tiles
  domains : s'.memo.domains = s.memo.domains

namespace Reads

theorem refl (s : SolveState) : Reads s s := ⟨rfl, rfl, rfl⟩

theorem trans {a b c : SolveState} (h₁ : Reads a b) (h₂ : Reads b c) : Reads a c :=
  ⟨h₂.model.trans h₁.model, h₂.tiles.trans h₁.tiles, h₂.domains.trans h₁.domains⟩

instance : Std.Refl Reads := ⟨refl⟩

instance : IsTrans SolveState Reads := ⟨fun _ _ _ => trans⟩

theorem steady {s s' : SolveState} (h : Reads s s') : Steady s s' := Steady.of_eq h.model h.tiles h.domains

end Reads

theorem steady_build {f : Model → Model × Nat} (hb : ∀ m : Model, m.Built → (f m).1.Built)
    (hg : ∀ m : Model, m.Grows (f m).1) : Moves Steady (build f) := fun _ _ _ h => by
  obtain ⟨-, rfl⟩ := runs_build.1 h
  exact Steady.of_grows (hb _) (hg _) rfl rfl

theorem steady_buildChecked {f : Model → Except Fault (Model × Nat)}
    (hf : ∀ m m' e, f m = .ok (m', e) → (m.Built → m'.Built) ∧ m.Grows m') :
    Moves Steady (buildChecked f) := fun _ _ _ h => by
  obtain ⟨m', hm, rfl⟩ := runs_buildChecked.1 h
  exact Steady.of_grows (hf _ _ _ hm).1 (hf _ _ _ hm).2 rfl rfl

theorem steady_buildSolved {f : Model → Except SolveError (Model × Nat)}
    (hf : ∀ m m' e, f m = .ok (m', e) → (m.Built → m'.Built) ∧ m.Grows m') :
    Moves Steady (buildSolved f) := fun _ _ _ h => by
  obtain ⟨m', hm, rfl⟩ := runs_buildSolved.1 h
  exact Steady.of_grows (hf _ _ _ hm).1 (hf _ _ _ hm).2 rfl rfl

theorem steady_const (c : Int) : Moves Steady (const c) :=
  steady_build (fun _ h => .constant c h) fun m => Model.Grows.constant m c

theorem steady_linear (ts : List (Int × Nat)) (c : Int) : Moves Steady (linear ts c) :=
  steady_build (fun _ h => .linear ts c h) fun m => Model.Grows.linear m ts c

theorem steady_sum (es : List Nat) : Moves Steady (sum es) :=
  steady_build (fun _ h => h.sum es) fun m => Model.Grows.sum m es

theorem steady_scale (e : Nat) (f : Int) : Moves Steady (scale e f) :=
  steady_build (fun _ h => h.scale e f) fun m => Model.Grows.scale m e f

theorem steady_product (es : List Nat) : Moves Steady (product es) :=
  steady_buildChecked fun _ _ _ h => ⟨fun hb => .product es hb h, Model.Grows.product h⟩

theorem steady_mul (a b : Nat) : Moves Steady (mul a b) :=
  steady_buildChecked fun _ _ _ h => ⟨fun hb => hb.mul h, Model.Grows.mul h⟩

theorem steady_post {f : Model → Model} (hb : ∀ m : Model, m.Built → (f m).Built)
    (hg : ∀ m : Model, m.Grows (f m)) :
    Moves Steady (post f) := fun _ _ _ h => by
  obtain rfl := runs_post.1 h
  exact Steady.of_grows (hb _) (hg _) rfl rfl

theorem steady_addEqual (a b : Nat) : Moves Steady (post (·.addEqual a b)) :=
  steady_post (fun _ h => .addEqual a b h) fun m => Model.Grows.addEqual m a b

theorem steady_addLessEqual (a b : Nat) : Moves Steady (post (·.addLessEqual a b)) :=
  steady_post (fun _ h => .addLessEqual a b h) fun m => Model.Grows.addLessEqual m a b

theorem reads_record (level : LogLevel) (source message : String) :
    Moves Reads (record level source message) := fun _ _ _ h => by
  obtain rfl := runs_record.1 h
  exact ⟨rfl, rfl, rfl⟩

theorem steady_record (level : LogLevel) (source message : String) :
    Moves Steady (record level source message) :=
  fun _ _ _ h => (reads_record level source message _ _ _ h).steady

theorem steady_memo {f : SolveMemo → SolveMemo} (hf : ∀ mm, (f mm).tiles = mm.tiles)
    (hd : ∀ mm, (f mm).domains = mm.domains) : Moves Steady (memo f) := fun _ _ _ h => by
  obtain rfl := runs_memo.1 h
  exact Steady.of_eq rfl (hf _) (hd _)

end Solving

end TileSched
