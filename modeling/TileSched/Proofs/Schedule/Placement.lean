import TileSched.Proofs.Schedule.Runs
/-! The first pass places every buffer of every tile node. A placed buffer's booleans are distinct
variable nodes posted together as one exactly-one group, and each of its create positions has a
size that is a word constant. `Sound` says so of every buffer in the tile memo, with the model
built; the steps that only build expressions leave the tile memo alone, and the step that writes
a tile's entry writes buffers placed just before. -/

namespace TileSched

open Solving

namespace TileBuffer

structure Placed (m : Model) (b : TileBuffer) : Prop where
  nodup : b.places.flatten.Nodup
  group : ∃ ms ∈ m.groups, List.Forall₂ (fun e v => m.nodes[e]? = some (.var v)) b.places.flatten ms
  sizes_length : b.sizes.length = b.places.length
  sizes : ∀ e ∈ b.sizes, m.WordConst e

theorem Placed.grows {m m' : Model} {b : TileBuffer} (h : b.Placed m) (hg : m.Grows m') :
    b.Placed m' := by
  obtain ⟨hnd, ⟨ms, hms, hf⟩, hlen, hs⟩ := h
  exact ⟨hnd, ⟨ms, hg.groups ms hms, hf.imp fun _ _ he => hg.nodes _ _ he⟩, hlen,
    fun e he => (hs e he).grows hg⟩

end TileBuffer

structure SolveState.Sound (s : SolveState) : Prop where
  built : s.model.Built
  placed : ∀ i info, s.memo.tile? i = some info → ∀ b ∈ info.buffers, b.Placed s.model
  domains : s.VarDomains

structure Keeps (s s' : SolveState) : Prop where
  sound : s.Sound → s'.Sound
  grows : s.model.Grows s'.model

namespace Keeps

theorem refl (s : SolveState) : Keeps s s := ⟨id, Model.Grows.refl _⟩

theorem trans {a b c : SolveState} (h₁ : Keeps a b) (h₂ : Keeps b c) : Keeps a c :=
  ⟨h₂.sound ∘ h₁.sound, h₁.grows.trans h₂.grows⟩

instance : Std.Refl Keeps := ⟨refl⟩

instance : IsTrans SolveState Keeps := ⟨fun _ _ _ => trans⟩

end Keeps

theorem Solving.Steady.keeps {s s' : SolveState} (h : Steady s s') : Keeps s s' := by
  refine ⟨fun hs => ⟨h.built hs.built, fun i info hi b hb => ?_, h.domains hs.domains⟩, h.grows⟩
  have hi' : s.memo.tile? i = some info := by simpa [SolveMemo.tile?, h.tiles] using hi
  exact (hs.placed i info hi' b hb).grows h.grows

theorem Solving.Moves.keeps {α : Type} {x : Solving α} (h : Moves Steady x) : Moves Keeps x :=
  fun s a s' hr => (h s a s' hr).keeps

theorem SolveState.Sound.set_tile {s : SolveState} (hs : s.Sound) (id : Nat) (info : TileInfo)
    (hinfo : ∀ b ∈ info.buffers, b.Placed s.model) :
    { s with memo := { s.memo with tiles := s.memo.tiles.set! id (some info) } }.Sound := by
  refine ⟨hs.built, fun i info' hi b hb => ?_, hs.domains⟩
  simp only [SolveMemo.tile?, getD_set!] at hi
  split at hi
  · cases hi
    exact hinfo b hb
  · exact hs.placed i info' hi b hb

def Fresh (s s' : SolveState) (es : List Nat) : Prop :=
  s.model.nodes.size ≤ s'.model.nodes.size ∧ es.Pairwise (· < ·) ∧
    ∀ e ∈ es, s.model.nodes.size ≤ e ∧ e < s'.model.nodes.size

section Fresh

variable {s t u : SolveState}

theorem Fresh.append {l₁ l₂ : List Nat} (h₁ : Fresh s t l₁) (h₂ : Fresh t u l₂) :
    Fresh s u (l₁ ++ l₂) := by
  refine ⟨h₁.1.trans h₂.1, List.pairwise_append.2 ⟨h₁.2.1, h₂.2.1, fun a ha b hb => ?_⟩,
    fun e he => ?_⟩
  · have := (h₁.2.2 a ha).2
    have := (h₂.2.2 b hb).1
    omega
  · rcases List.mem_append.1 he with he | he
    · have := h₁.2.2 e he
      have := h₂.1
      omega
    · have := h₂.2.2 e he
      have := h₁.1
      omega

theorem Fresh.of_steady (h : Steady s t) : Fresh s t [] := ⟨h.grows.size_le, .nil, by simp⟩

theorem fresh_mapM {α β : Type} {f : α → Solving β} {g : β → List Nat} :
    ∀ {xs : List α}, (∀ x ∈ xs, ∀ t y t', Runs (f x) t y t' → Fresh t t' (g y)) →
      ∀ {s ys s'}, Runs (xs.mapM f) s ys s' → Fresh s s' (ys.flatMap g)
  | [], _, _, _, _, h => by
    obtain ⟨rfl, rfl⟩ := runs_pure.1 h
    exact ⟨le_refl _, .nil, by simp⟩
  | x :: xs, hf, _, _, _, h => by
    obtain ⟨y, t, ys', hy, hrest, rfl⟩ := runs_mapM_cons.1 h
    rw [List.flatMap_cons]
    exact (hf x List.mem_cons_self _ _ _ hy).append
      (fresh_mapM (fun z hz => hf z (List.mem_cons_of_mem _ hz)) hrest)

theorem fresh_newBool (name : String) {e : Nat} (h : Runs (build (·.newBool name)) s e t) :
    Fresh s t [e] := by
  obtain ⟨rfl, rfl⟩ := runs_build.1 h
  simp [Fresh, Model.newBool, Model.newVar, Model.push]

end Fresh

/-- A preorder on solve states along which every expression and equation the first pass builds
moves the state. -/
class Builds (R : SolveState → SolveState → Prop) : Prop extends Std.Refl R, IsTrans SolveState R where
  const : ∀ c, Moves R (const c)
  scale : ∀ e f, Moves R (scale e f)
  mul : ∀ a b, Moves R (mul a b)
  product : ∀ es, Moves R (product es)
  linear : ∀ ts c, Moves R (linear ts c)
  addEqual : ∀ a b, Moves R (post (·.addEqual a b))

instance : Builds Steady :=
  ⟨steady_const, steady_scale, steady_mul, steady_product, steady_linear, steady_addEqual⟩

section Builds

variable {R : SolveState → SolveState → Prop} [Builds R]

theorem moves_toModel (e : AffineExpr) (dims : List Nat) (syms : List Int) :
    Moves R (e.toModel dims syms) := by
  unfold AffineExpr.toModel
  refine Moves.bind ?_ fun c => Moves.bind ?_ fun terms => ?_
  · refine Moves.foldlM _ fun x _ _ => ?_
    obtain ⟨k, i⟩ := x
    dsimp only
    split
    · exact Moves.tree _
    · exact Moves.throw _
  · refine Moves.mapM fun x _ => ?_
    obtain ⟨k, i⟩ := x
    dsimp only
    split
    · exact Moves.pure _
    · exact Moves.throw _
  · split
    · split
      · exact Moves.pure _
      · exact Builds.linear _ _
    · exact Builds.linear _ _

theorem moves_shapeAndSize (am : AffineMap) (extents : List Nat) (elemBytes : Int) :
    Moves R (shapeAndSize am extents elemBytes) := by
  unfold shapeAndSize AffineMap.extentsToModel
  exact Moves.bind (Moves.mapM fun (r : AffineRange) _ => moves_toModel r.extent extents []) fun _ =>
    Moves.bind (Builds.product _) fun _ => Moves.bind (Builds.scale _ _) fun _ => Moves.pure _

end Builds

theorem shapeAndSize_size {am : AffineMap} {extents : List Nat} {elemBytes : Int}
    {s s' : SolveState} {r : List Nat × Nat} (h : Runs (shapeAndSize am extents elemBytes) s r s')
    (hb : s.model.Built) : s'.model.WordConst r.2 := by
  unfold shapeAndSize at h
  simp only [runs_bind, runs_pure] at h
  obtain ⟨shape, t₁, hshape, elems, t₂, helems, size, t₃, hsize, rfl, rfl⟩ := h
  have hb₁ : t₁.model.Built :=
    (Moves.mapM (R := Steady) (fun (r : AffineRange) _ => moves_toModel r.extent extents []) _ _ _ hshape).built hb
  obtain ⟨m₂, hm₂, rfl⟩ := runs_buildChecked.1 helems
  obtain ⟨rfl, rfl⟩ := runs_build.1 hsize
  exact Model.WordConst.scale (Model.Built.product _ hb₁ hm₂).constantsNamed
    (Model.WordConst.product hb₁.constantsNamed hm₂) _

theorem placeBuffer_spec {id level firstPos : Nat} {backward : List (List Nat)} {b : BufferResult}
    {s s' : SolveState} {tb : TileBuffer}
    (h : Runs (Init.placeBuffer id level firstPos backward b) s tb s') :
    Steady s s' ∧ (s.model.Built → tb.Placed s'.model) := by
  unfold Init.placeBuffer at h
  simp only [runs_bind] at h
  obtain ⟨rows, s₁, hrows, t, s₂, hget, h⟩ := h
  obtain ⟨ht, hs₂⟩ := runs_get.1 hget
  subst t s₂
  -- each row: fresh booleans for the levels below, then the size at its create position
  have hnew : ∀ name, Moves Steady (build (·.newBool name)) := fun name =>
    steady_build (fun _ h => .newBool name h) fun m => Model.Grows.newBool m name
  obtain ⟨hsteady, hsizes⟩ := Moves.mapM_post (I := fun t => t.model.Built)
    (Q := fun r t => t.model.WordConst r.2.2) (fun _ _ hb hst => hst.built hb)
    (fun _ _ _ hw hst => hw.grows hst.grows)
    (fun _ _ => Moves.bind (Moves.mapM fun _ _ => hnew _) fun _ =>
      Moves.bind (Moves.tree _) fun _ => Moves.bind (moves_shapeAndSize _ _ _) fun _ => Moves.pure _)
    (fun _ _ t r t' ht hr => by
      simp only [runs_bind, runs_pure] at hr
      obtain ⟨row, t₁, hrow, d, t₂, hd, x, t₃, hx, rfl, rfl⟩ := hr
      obtain ⟨-, ht₂⟩ := runs_tree.1 hd
      subst t₂
      have hb₁ : t₁.model.Built := (Moves.mapM (fun _ _ => hnew _) _ _ _ hrow).built ht
      exact shapeAndSize_size hx hb₁) hrows
  have hfresh : Fresh s s₁ (rows.flatMap (·.1)) := by
    refine fresh_mapM (fun _ _ t r t' hr => ?_) hrows
    simp only [runs_bind, runs_pure] at hr
    obtain ⟨row, t₁, hrow, d, t₂, hd, x, t₃, hx, rfl, rfl⟩ := hr
    obtain ⟨-, ht₂⟩ := runs_tree.1 hd
    subst t₂
    have h₁ : Fresh t t₁ (row.flatMap fun e => [e]) :=
      fresh_mapM (fun _ _ _ _ _ he => fresh_newBool _ he) hrow
    simpa [List.flatMap_singleton'] using h₁.append (Fresh.of_steady (moves_shapeAndSize _ _ _ _ _ _ hx))
  split at h
  · rename_i m hm
    simp only [runs_bind, runs_set, runs_pure] at h
    obtain ⟨_, _, rfl, rfl, rfl⟩ := h
    obtain ⟨hnodes, ms, hgroups, hms⟩ := Model.addExactlyOne_spec hm
    have hg : s₁.model.Grows m := Model.Grows.addExactlyOne hm
    refine ⟨hsteady.trans (Steady.of_grows (fun hb => .addExactlyOne _ hb hm) hg rfl rfl), fun hb => ?_⟩
    have hflat : (rows.map (·.1)).flatten = rows.flatMap (·.1) := rfl
    refine ⟨?_, ⟨ms, ?_, ?_⟩, by simp, fun e he => ?_⟩
    · rw [hflat]
      exact hfresh.2.1.imp fun h => Nat.ne_of_lt h
    · rw [hgroups]
      exact Array.mem_push_self
    · rw [hflat, hnodes]
      exact hms
    · obtain ⟨r, hr, rfl⟩ := List.mem_map.1 he
      exact (hsizes hb r hr).grows hg
  · obtain ⟨_, _, h, -⟩ := runs_bind.1 h
    exact absurd h not_runs_throw

theorem placeBuffer_shape {id level firstPos : Nat} {backward : List (List Nat)} {b : BufferResult}
    {s s' : SolveState} {tb : TileBuffer} (h : Runs (Init.placeBuffer id level firstPos backward b) s tb s') :
    (∀ row ∈ tb.places, row.length = level) ∧ tb.places.length = backward.length - firstPos ∧
      tb.firstPos = firstPos ∧ tb.writes = [] ∧ tb.dimTrips = [] := by
  unfold Init.placeBuffer at h
  simp only [runs_bind] at h
  obtain ⟨rows, s₁, hrows, t, s₂, hget, h⟩ := h
  obtain ⟨ht, hs₂⟩ := runs_get.1 hget
  subst t s₂
  have hrow : ∀ r ∈ rows, r.1.length = level := by
    refine runs_mapM_post (fun _ _ t r t' hr => ?_) hrows
    simp only [runs_bind, runs_pure] at hr
    obtain ⟨row, t₁, hrow, d, t₂, -, x, t₃, -, rfl, rfl⟩ := hr
    simpa using runs_mapM_length hrow
  split at h
  · simp only [runs_bind, runs_set, runs_pure] at h
    obtain ⟨_, _, rfl, rfl, rfl⟩ := h
    refine ⟨fun row hr => ?_, by simp [runs_mapM_length hrows], rfl, rfl, rfl⟩
    obtain ⟨r, hr', rfl⟩ := List.mem_map.1 hr
    exact hrow r hr'
  · obtain ⟨_, _, h, -⟩ := runs_bind.1 h
    exact absurd h not_runs_throw

namespace Init

theorem steady_domainInfo (id : Nat) (relation : AffineMap) (domains : List (List Int))
    (ctx : InitContext) : Moves Steady (domainInfo id relation domains ctx) := by
  intro s d s' h
  unfold domainInfo at h
  obtain ⟨st, s₀, hget, h₀⟩ := runs_bind.1 h
  obtain ⟨rfl, rfl⟩ := runs_get.1 hget
  clear h
  split at h₀
  · exact (runs_pure.1 h₀).2 ▸ Steady.refl _
  obtain ⟨tileVars, s₁, h₁, h₀⟩ := runs_bind.1 h₀
  obtain ⟨forward, s₂, h₂, h₀⟩ := runs_bind.1 h₀
  obtain ⟨_, s₃, h₃, h₄⟩ := runs_bind.1 h₀
  obtain ⟨-, rfl⟩ := runs_pure.1 h₄
  obtain rfl := runs_memo.1 h₃
  have hnew : ∀ (dom : List Int) (k : Nat), Moves Steady (buildSolved
      fun x => x.newInt ("tv_" ++ TileTree.nodeName id ++ "_" ++ toString k) dom) := fun _ _ =>
    steady_buildSolved fun _ _ _ h => ⟨fun hb => .newInt _ _ hb h, Model.Grows.newInt h⟩
  have key := Moves.mapM_post (R := Steady) (I := fun _ => True)
    (Q := fun e t => ∃ v, t.model.nodes[e]? = some (.var v)) (fun _ _ _ _ => trivial)
    (fun _ _ _ hq hst => by obtain ⟨v, hv⟩ := hq; exact ⟨v, hst.grows.nodes _ _ hv⟩) ?moves ?vars h₁
  case moves =>
    rintro ⟨dom, k⟩ -
    dsimp only
    split
    · exact Moves.bind (Moves.throw _) fun _ => hnew _ _
    · exact hnew _ _
  case vars =>
    rintro ⟨dom, k⟩ - t e t' - hr
    dsimp only at hr
    split at hr
    · obtain ⟨_, _, hr, -⟩ := runs_bind.1 hr
      exact absurd hr not_runs_throw
    · obtain ⟨m, hm, rfl⟩ := runs_buildSolved.1 hr
      exact Model.newInt_var hm
  obtain ⟨hs₁, hvars⟩ := key
  have hs₂ : Steady s₁ s₂ := by
    refine (Moves.mapM fun x _ => ?_) _ _ _ h₂
    obtain ⟨tv, k⟩ := x
    dsimp only
    split
    · exact steady_mul _ _
    · exact Moves.pure _
  refine ⟨hs₂.built ∘ hs₁.built, hs₁.grows.trans hs₂.grows, hs₂.tiles.trans hs₁.tiles, fun hd => ?_⟩
  -- the entry written names the new variables; every other entry is one of before
  intro id' d' hid' e he
  simp only [SolveMemo.domain?, getD_set!] at hid'
  split at hid'
  · cases hid'
    obtain ⟨v, hv⟩ := hvars trivial e he
    exact ⟨v, hs₂.grows.nodes _ _ hv⟩
  · exact hs₂.domains (hs₁.domains hd) id' d' hid' e he

theorem steady_nextStamp : Moves Steady nextStamp := fun _ _ _ h => by
  obtain ⟨-, rfl⟩ := Prod.mk.inj (runs_modifyGet.1 h)
  exact Steady.of_eq rfl rfl rfl

theorem steady_cached (id : Nat) : Moves Steady (cached? id) :=
  Moves.bind Moves.get fun _ => Moves.pure _

theorem steady_remember (id : Nat) (r : InitResult) : Moves Steady (remember id r) :=
  fun _ _ _ h => by
  obtain rfl := runs_modify.1 h
  exact Steady.of_eq rfl rfl rfl

theorem steady_visitLeaf (g : Dataflow) (tgt : Target) (id : Nat) (leaf : OpLeaf)
    (ctx : InitContext) : Moves Steady (visitLeaf g tgt id leaf ctx) := by
  unfold visitLeaf
  refine Moves.bind (steady_cached id) fun r => ?_
  split
  · exact Moves.pure _
  refine Moves.bind (Moves.lift _) fun op => Moves.bind (steady_domainInfo _ _ _ _) fun domain =>
    Moves.bind ?_ fun extents => Moves.bind steady_nextStamp fun t => Moves.bind ?_ fun parts =>
      Moves.bind (steady_record _ _ _) fun _ => Moves.bind (steady_memo (fun _ => rfl) fun _ => rfl) fun _ =>
        Moves.bind (steady_remember _ _) fun _ => Moves.pure _
  · refine Moves.mapM fun x _ => ?_
    obtain ⟨bound, d⟩ := x
    dsimp only
    exact Moves.bind (Moves.tree _) fun _ => Moves.bind (steady_scale _ _) fun _ =>
      Moves.bind (steady_const _) fun _ => Moves.bind (steady_addEqual _ _) fun _ =>
        Moves.bind (Moves.tree _) fun _ => steady_scale _ _
  · refine Moves.mapM fun index _ => ?_
    split
    · exact Moves.bind (moves_shapeAndSize _ _ _) fun _ => Moves.pure _
    · exact Moves.throw _

section Builds

variable {R : SolveState → SolveState → Prop} [Builds R]

theorem moves_childExtents (t : TileTree) (id rank : Nat) (children : List (Nat × InitResult)) :
    Moves R (childExtents t id rank children) := by
  unfold childExtents
  refine Moves.bind (Moves.foldlM _ fun x _ found => ?_) fun found => Moves.mapM fun y _ => ?_
  · obtain ⟨child, res⟩ := x
    dsimp only
    refine Moves.bind (Moves.tree _) fun rel => ?_
    split
    · refine Moves.foldlM _ fun z _ found => ?_
      obtain ⟨range, k⟩ := z
      dsimp only
      -- an extent passed through is tied to an earlier one or recorded; a constant one is pinned
      repeat' split
      all_goals first
        | exact Moves.pure _
        | exact Moves.bind (Builds.addEqual _ _) fun _ => Moves.pure _
        | exact Moves.bind (Builds.const _) fun _ => Moves.bind (Builds.addEqual _ _) fun _ =>
            Moves.pure _
    · exact Moves.throw _
  · obtain ⟨e, dim⟩ := y
    dsimp only
    split
    · exact Moves.pure _
    · exact Moves.throw _

theorem moves_backwardRows (tileVars inner : List Nat) :
    Moves R (backwardRows tileVars inner) := by
  unfold backwardRows
  refine Moves.mapM fun pos _ => Moves.mapM fun x _ => ?_
  obtain ⟨ext, j⟩ := x
  dsimp only
  split
  · exact Moves.pure _
  · exact Moves.bind (Moves.tree _) fun _ => Builds.mul _ _

end Builds

section DefUse

variable {R : SolveState → SolveState → Prop} [Std.Refl R] [IsTrans SolveState R]

theorem moves_joinRead (g : Dataflow) (present : List BufferId) (du : List (BufferId × BufferId))
    (b : BufferResult) : Moves R (joinRead g present du b) := by
  unfold joinRead
  refine Moves.bind (Moves.lift _) fun op => ?_
  split
  · split
    · refine Moves.bind (Moves.lift _) fun _ => ?_
      dsimp only
      split
      · exact Moves.pure _
      · exact Moves.pure _
    · exact Moves.pure _
  · exact Moves.pure _

omit [IsTrans SolveState R] in
theorem moves_absorbSink (sources : List BufferResult) (defUse : List (BufferId × BufferId))
    (merged : List BufferResult) (sink : BufferResult) : Moves R (absorbSink sources defUse merged sink) := by
  unfold absorbSink
  dsimp only
  split
  · exact Moves.pure _
  · exact Moves.throw _

theorem moves_resolveDefUse (g : Dataflow) (buffers : List BufferResult) :
    Moves R (resolveDefUse g buffers) := by
  unfold resolveDefUse
  exact Moves.bind (Moves.foldlM _ fun _ _ _ => moves_joinRead _ _ _ _) fun _ =>
    Moves.bind (Moves.foldlM _ fun _ _ _ => moves_absorbSink _ _ _ _) fun _ => Moves.pure _

end DefUse

theorem steady_placeBuffer (id level firstPos : Nat) (backward : List (List Nat)) (b : BufferResult) :
    Moves Steady (placeBuffer id level firstPos backward b) :=
  fun _ _ _ h => (placeBuffer_spec h).1

theorem childExtents_length {t : TileTree} {id rank : Nat} {children : List (Nat × InitResult)}
    {s s' : SolveState} {inner : List Nat} (h : Runs (childExtents t id rank children) s inner s') :
    inner.length = rank := by
  unfold childExtents at h
  obtain ⟨found, s₁, h₁, h₂⟩ := runs_bind.1 h
  rw [runs_mapM_length h₂, List.length_zipIdx]
  -- every step returns the list it got, or that list with one entry set
  refine runs_foldlM_inv (fun found : List (Option Nat) => found.length = rank) h₁ (by simp) ?_
  rintro ⟨child, res⟩ - found t found' t' hlen hr
  dsimp only at hr
  obtain ⟨rel, t₁, -, hr⟩ := runs_bind.1 hr
  split at hr
  · refine runs_foldlM_inv (fun found : List (Option Nat) => found.length = rank) hr hlen ?_
    rintro ⟨range, k⟩ - f u f' u' hf hr'
    dsimp only at hr'
    repeat' split at hr'
    all_goals simp only [runs_bind, runs_pure] at hr'
    · -- tied to an earlier extent
      obtain ⟨_, _, -, rfl, -⟩ := hr'
      exact hf
    · -- recorded
      obtain ⟨rfl, -⟩ := hr'
      rw [List.length_set]
      exact hf
    · obtain ⟨rfl, -⟩ := hr'
      exact hf
    · -- pinned to a constant range
      obtain ⟨_, _, -, _, _, -, rfl, -⟩ := hr'
      exact hf
    · obtain ⟨rfl, -⟩ := hr'
      exact hf
    · obtain ⟨rfl, -⟩ := hr'
      exact hf
  · exact absurd hr not_runs_throw

theorem runs_finishTile {g : Dataflow} {tgt : Target} {t : TileTree} {id : Nat} {tile : TileNode}
    {ctx : InitContext} {domain : DomainInfo} {children : List (Nat × InitResult)} {s s' : SolveState}
    {r : InitResult} (h : Runs (finishTile g tgt t id tile ctx domain children) s r s') :
    ∃ (backward : List (List Nat)) (defUse : List (BufferId × BufferId)) (placed : List TileBuffer)
      (s₁ : SolveState), Steady s s₁ ∧ backward.length = tile.bounds.length + 1 ∧
      (s.model.Built → ∀ b ∈ placed, b.Placed s₁.model) ∧
      (∀ b ∈ placed, (∀ row ∈ b.places, row.length = tile.level) ∧
        b.places.length = backward.length - b.firstPos ∧
        b.firstPos = (if ctx.parent.isNone ∧ tile.level = tgt.topLevel then 0 else 1) ∧
        b.writes = [] ∧ b.dimTrips = []) ∧
      Steady { s₁ with memo := { s₁.memo with tiles := s₁.memo.tiles.set! id (some ⟨defUse, placed, backward⟩) } }
        s' := by
  unfold finishTile at h
  simp only [runs_bind] at h
  obtain ⟨inner, s₁, h₁, backward, s₂, h₂, h⟩ := h
  rw [runs_ite_bind] at h
  obtain ⟨_, s₃, h₃, h⟩ := runs_bind.1 h
  simp only [runs_bind] at h
  obtain ⟨lifted, s₄, h₄, ⟨buffers, defUse⟩, s₅, h₅, placed, s₆, h₆, _, s₇, h₇, _, s₈, h₈, _, s₉, h₉,
    h₁₀⟩ := h
  obtain ⟨-, rfl⟩ := runs_pure.1 h₁₀
  -- everything before the placement, and the pinned bounds, only build
  have hs₃ : Steady s s₃ := by
    refine trans_of Steady (moves_childExtents _ _ _ _ _ _ _ h₁)
      (trans_of Steady (moves_backwardRows _ _ _ _ _ h₂) ?_)
    refine (?_ : Moves Steady _) _ _ _ h₃
    split
    · refine Moves.forIn _ fun x _ _ => ?_
      exact Moves.bind (steady_const _) fun _ => Moves.bind (Moves.tree _) fun _ =>
        Moves.bind (Moves.tree _) fun _ => Moves.bind (steady_addEqual _ _) fun _ => Moves.pure _
    · exact Moves.pure _
  have hs₅ : Steady s₃ s₅ := by
    refine trans_of Steady ((?_ : Moves Steady _) _ _ _ h₄) (moves_resolveDefUse _ _ _ _ _ h₅)
    refine Moves.foldlM _ fun x _ acc => Moves.bind (Moves.tree _) fun _ => ?_
    split
    · exact Moves.bind (Moves.mapM fun _ _ => Moves.bind (Moves.lift _) fun _ => Moves.pure _)
        fun _ => Moves.pure _
    · exact Moves.throw _
  obtain ⟨hs₆, hplaced⟩ := Moves.mapM_post (R := Steady) (I := fun t => t.model.Built)
    (Q := fun tb t => tb.Placed t.model) (fun _ _ hb hst => hst.built hb)
    (fun _ _ _ hp hst => hp.grows hst.grows) (fun _ _ => steady_placeBuffer _ _ _ _ _)
    (fun _ _ _ _ _ hb hr => (placeBuffer_spec hr).2 hb) h₆
  have hs₇ : Steady s₆ s₇ := steady_record _ _ _ _ _ _ h₇
  obtain rfl := runs_memo.1 h₈
  have hback : backward.length = tile.bounds.length + 1 := by
    rw [runs_mapM_length h₂, List.length_range, childExtents_length h₁]
  refine ⟨backward, defUse, placed, s₇, hs₃.trans (hs₅.trans (hs₆.trans hs₇)), hback,
    fun hb b hb' => (hplaced ((hs₃.trans hs₅).built hb) b hb').grows hs₇.grows, fun b hb => ?_,
    steady_remember _ _ _ _ _ h₉⟩
  obtain ⟨hrows, hlen, hfirst, hw, hd⟩ :=
    runs_mapM_post (fun _ _ _ _ _ hr => placeBuffer_shape hr) h₆ b hb
  exact ⟨hrows, hfirst ▸ hlen, hfirst, hw, hd⟩

theorem keeps_finishTile (g : Dataflow) (tgt : Target) (t : TileTree) (id : Nat) (tile : TileNode)
    (ctx : InitContext) (domain : DomainInfo) (children : List (Nat × InitResult)) :
    Moves Keeps (finishTile g tgt t id tile ctx domain children) := by
  intro s r s' h
  obtain ⟨backward, defUse, placed, s₁, hs₁, -, hplaced, -, hs'⟩ := runs_finishTile h
  exact ⟨fun hs => hs'.keeps.sound ((hs₁.keeps.sound hs).set_tile id _ (hplaced hs.built)),
    hs₁.grows.trans hs'.grows⟩

theorem keeps_visit (g : Dataflow) (tgt : Target) (t : TileTree) :
    ∀ (f id : Nat) (ctx : InitContext), Moves Keeps (visit g tgt t f id ctx)
  | 0, _, _ => Moves.pure _
  | f + 1, id, ctx => by
    rw [visit]
    refine Moves.bind (Moves.tree _) fun kind => ?_
    split
    · exact (steady_visitLeaf _ _ _ _ _).keeps
    · refine Moves.bind (steady_cached id).keeps fun r => ?_
      split
      · exact Moves.pure _
      · exact Moves.bind (steady_domainInfo _ _ _ _).keeps fun _ => Moves.bind (Moves.tree _) fun _ =>
          Moves.bind (Moves.mapM fun c _ => Moves.bind (keeps_visit g tgt t f c _) fun _ => Moves.pure _)
            fun _ => keeps_finishTile _ _ _ _ _ _ _ _
    · exact Moves.bind (Moves.tree _) fun _ =>
        Moves.bind (Moves.mapM fun c _ => keeps_visit g tgt t f c ctx) fun _ => Moves.pure _

end Init

theorem keeps_createVariables (t : TileTree) (g : Dataflow) (tgt : Target) :
    Moves Keeps (t.createVariables g tgt) :=
  Init.keeps_visit g tgt t _ _ _

theorem TileBuffer.Placed.congr {m : Model} {b b' : TileBuffer} (h : b.Placed m)
    (hp : b'.places = b.places) (hs : b'.sizes = b.sizes) : b'.Placed m := by
  obtain ⟨hnd, hg, hlen, hsz⟩ := h
  exact ⟨hp ▸ hnd, hp ▸ hg, hp ▸ hs ▸ hlen, hs ▸ hsz⟩

theorem mem_modify {α : Type} {l : List α} {i : Nat} {f : α → α} {b' : α} (h : b' ∈ l.modify i f) :
    b' ∈ l ∨ ∃ b, l[i]? = some b ∧ b' = f b := by
  obtain ⟨j, hj, rfl⟩ := List.mem_iff_getElem.1 h
  have hj' : j < l.length := by simpa using hj
  rw [List.getElem_modify]
  split
  · rename_i hij
    subst hij
    exact .inr ⟨l[i], List.getElem?_eq_getElem hj', rfl⟩
  · exact .inl (List.getElem_mem hj')

namespace Writes

/-- The steps of `fillBuffer` after it reads the memo of `a`: the model only grows, and the
tile entry it writes is `a`'s with the same placements, so soundness carries over. -/
structure FillRel (a s s' : SolveState) : Prop where
  grows : s.model.Grows s'.model
  sound : a.model.Grows s.model → a.Sound → s.Sound → s'.Sound

instance (a : SolveState) : Std.Refl (FillRel a) := ⟨fun _ => ⟨Model.Grows.refl _, fun _ _ h => h⟩⟩

instance (a : SolveState) : IsTrans SolveState (FillRel a) :=
  ⟨fun _ _ _ h₁ h₂ => ⟨h₁.grows.trans h₂.grows, fun ha has hs =>
    h₂.sound (ha.trans h₁.grows) has (h₁.sound ha has hs)⟩⟩

theorem fillRel_of_steady {a : SolveState} {α : Type} {x : Solving α} (h : Moves Steady x) :
    Moves (FillRel a) x :=
  fun _ _ _ hr => ⟨(h _ _ _ hr).grows, fun _ _ hs => (h _ _ _ hr).keeps.sound hs⟩

theorem fillRel_write {a : SolveState} {id : Nat} {tile : TileInfo} (htile : a.memo.tile? id = some tile)
    (slot : Nat) (g : TileBuffer → TileBuffer) (hg : ∀ b, (g b).places = b.places ∧ (g b).sizes = b.sizes) :
    Moves (FillRel a) (Solving.memo fun m =>
      { m with tiles := m.tiles.set! id (some { tile with buffers := tile.buffers.modify slot g }) }) :=
  fun _ _ _ hr => by
  obtain rfl := runs_memo.1 hr
  refine ⟨Model.Grows.refl _, fun ha has hs => hs.set_tile id _ fun b hb => ?_⟩
  rcases mem_modify hb with hb | ⟨b₀, hb₀, rfl⟩
  · exact (has.placed id tile htile b hb).grows ha
  · exact ((has.placed id tile htile b₀ (List.mem_of_getElem? hb₀)).grows ha).congr (hg b₀).1 (hg b₀).2

theorem steady_inheritedTrips (memo : SolveMemo) (rank : Nat) (domain : DomainInfo) (parent : Option Nat)
    (one : Nat) (bid : BufferId) : Moves Steady (inheritedTrips memo rank domain parent one bid) := by
  unfold inheritedTrips
  split
  · exact Moves.pure _
  · split
    · exact Moves.pure _
    · exact Moves.throw _

theorem keeps_fillBuffer (id rank : Nat) (domain : DomainInfo) (parent : Option Nat) (one : Nat)
    (bid : BufferId) : Moves Keeps (fillBuffer id rank domain parent one bid) := by
  intro s u s' h
  unfold fillBuffer at h
  obtain ⟨a, t, hget, hcont⟩ := runs_bind.1 h
  obtain ⟨rfl, rfl⟩ := runs_get.1 hget
  suffices hrel : FillRel t t s' from
    ⟨fun hs => hrel.sound (Model.Grows.refl _) hs hs, hrel.grows⟩
  refine (?_ : Moves (FillRel t) _) t u s' hcont
  dsimp only
  refine Moves.bind (fillRel_of_steady (steady_inheritedTrips _ _ _ _ _ _)) fun inherited => ?_
  split
  · refine Moves.bind (fillRel_of_steady ?_) fun dimTrips =>
      Moves.bind (fillRel_of_steady (steady_product _)) fun total =>
        Moves.bind (fillRel_of_steady ?_) fun tw => ?_
    · refine Moves.mapM fun k _ => ?_
      split
      · exact Moves.bind (Moves.tree _) fun _ => Moves.bind (Moves.tree _) fun _ => steady_mul _ _
      · exact Moves.bind (Moves.pure _) fun _ => Moves.bind (Moves.tree _) fun _ => steady_mul _ _
    · exact Moves.mapM fun _ _ => Moves.bind (Moves.mapM fun _ _ => Moves.tree _) fun _ =>
        Moves.bind (steady_product _) fun _ => Moves.bind (Moves.tree _) fun _ =>
          Moves.bind (steady_mul _ _) fun _ => Moves.pure _
    split
    · rename_i tile htile
      split
      · exact fillRel_write htile _ _ fun _ => ⟨rfl, rfl⟩
      · exact Moves.throw _
    · exact Moves.throw _
  · exact Moves.throw _

theorem keeps_visit (t : TileTree) : ∀ (f id : Nat) (parent : Option Nat), Moves Keeps (visit t f id parent)
  | 0, _, _ => Moves.pure _
  | f + 1, id, parent => by
    rw [visit]
    refine Moves.bind (Moves.tree _) fun kind => ?_
    split
    · exact Moves.pure _
    · refine Moves.bind Moves.get fun st => ?_
      split
      · refine Moves.bind (steady_const 1).keeps fun one => Moves.bind Moves.get fun st' => ?_
        split
        · exact Moves.bind (Moves.forIn _ fun _ _ _ =>
            Moves.bind (keeps_fillBuffer _ _ _ _ _ _) fun _ => Moves.pure _) fun _ =>
              Moves.bind (Moves.tree _) fun _ => Moves.bind (Moves.forIn _ fun _ _ _ =>
                Moves.bind (keeps_visit t f _ _) fun _ => Moves.pure _) fun _ => Moves.pure _
        · exact Moves.throw _
      · exact Moves.throw _
    · exact Moves.bind (Moves.tree _) fun _ => Moves.bind (Moves.forIn _ fun _ _ _ =>
        Moves.bind (keeps_visit t f _ _) fun _ => Moves.pure _) fun _ => Moves.pure _

end Writes

theorem keeps_propagateWrites (t : TileTree) : Moves Keeps t.propagateWrites :=
  Writes.keeps_visit t _ _ _

end TileSched
