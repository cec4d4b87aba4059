import Mathlib
import TileSched.Proofs.Schedule.Aliasing
import TileSched.Proofs.Fusion.Forest
/-! The first pass reports every tile node's buffer entries aliased. The walk visits a realized
subtree in preorder: a leaf takes the next two time steps and reports one entry per buffer, live
for its step; a tile reports its children's entries joined by def-use resolution. Every other
step is `Calm`: it keeps the clock, the results and the tile memo. By induction on the subtree,
a walk from a state with no result in the subtree is `Walked`: the clock moves two steps per
leaf, nothing outside the subtree changes, the result is aliased over the subtree's leaves, and
every tile of it holds an alias report. -/

namespace TileSched

open Solving

namespace Solving

/-- The clock, the results and the tile memo are as they were: a step that only builds the
model, records, or writes the domain and leaf memos. -/
structure Calm (s s' : SolveState) : Prop where
  clock : s'.clock = s.clock
  results : s'.results = s.results
  tiles : s'.memo.tiles = s.memo.tiles

namespace Calm

theorem refl (s : SolveState) : Calm s s := ⟨rfl, rfl, rfl⟩

theorem trans {a b c : SolveState} (h₁ : Calm a b) (h₂ : Calm b c) : Calm a c :=
  ⟨h₂.clock.trans h₁.clock, h₂.results.trans h₁.results, h₂.tiles.trans h₁.tiles⟩

instance : Std.Refl Calm := ⟨refl⟩

instance : IsTrans SolveState Calm := ⟨fun _ _ _ => trans⟩

end Calm

theorem calm_build (f : Model → Model × Nat) : Moves Calm (build f) := fun _ _ _ h => by
  obtain ⟨-, rfl⟩ := runs_build.1 h
  exact ⟨rfl, rfl, rfl⟩

theorem calm_buildChecked (f : Model → Except Fault (Model × Nat)) : Moves Calm (buildChecked f) :=
  fun _ _ _ h => by
  obtain ⟨_, -, rfl⟩ := runs_buildChecked.1 h
  exact ⟨rfl, rfl, rfl⟩

theorem calm_buildSolved (f : Model → Except SolveError (Model × Nat)) : Moves Calm (buildSolved f) :=
  fun _ _ _ h => by
  obtain ⟨_, -, rfl⟩ := runs_buildSolved.1 h
  exact ⟨rfl, rfl, rfl⟩

theorem calm_post (f : Model → Model) : Moves Calm (post f) := fun _ _ _ h => by
  obtain rfl := runs_post.1 h
  exact ⟨rfl, rfl, rfl⟩

theorem calm_record (level : LogLevel) (source message : String) : Moves Calm (record level source message) :=
  fun _ _ _ h => by
  obtain rfl := runs_record.1 h
  exact ⟨rfl, rfl, rfl⟩

theorem calm_memo {f : SolveMemo → SolveMemo} (hf : ∀ mm, (f mm).tiles = mm.tiles) : Moves Calm (memo f) :=
  fun _ _ _ h => by
  obtain rfl := runs_memo.1 h
  exact ⟨rfl, rfl, hf _⟩

instance : Builds Calm :=
  ⟨fun _ => calm_build _, fun _ _ => calm_build _, fun _ _ => calm_buildChecked _,
    fun _ => calm_buildChecked _, fun _ _ => calm_build _, fun _ _ => calm_post _⟩

theorem runs_mapM_map {α β γ : Type} {f : α → Solving β} {G : α → γ} {H : β → γ} :
    ∀ {xs : List α}, (∀ x ∈ xs, ∀ t y t', Runs (f x) t y t' → H y = G x) →
      ∀ {ys : List β} {s s' : SolveState}, Runs (xs.mapM f) s ys s' → ys.map H = xs.map G
  | [], _, _, _, _, h => by
    obtain ⟨rfl, -⟩ := runs_pure.1 h
    rfl
  | x :: _, hf, _, _, _, h => by
    obtain ⟨y, t, ys', hy, hrest, rfl⟩ := runs_mapM_cons.1 h
    rw [List.map_cons, List.map_cons, hf x List.mem_cons_self _ _ _ hy,
      runs_mapM_map (fun x' hx' => hf x' (List.mem_cons_of_mem _ hx')) hrest]

end Solving

namespace Init

theorem runs_cached {id : Nat} {s s' : SolveState} {c : Option InitResult} :
    Runs (cached? id) s c s' ↔ c = s.results.getD id none ∧ s' = s := by
  unfold cached?
  simp only [runs_bind, runs_get, runs_pure]
  constructor
  · rintro ⟨_, _, ⟨rfl, rfl⟩, rfl, rfl⟩
    exact ⟨rfl, rfl⟩
  · rintro ⟨rfl, rfl⟩
    exact ⟨_, _, ⟨rfl, rfl⟩, rfl, rfl⟩

theorem calm_domainInfo (id : Nat) (relation : AffineMap) (domains : List (List Int)) (ctx : InitContext) :
    Moves Calm (domainInfo id relation domains ctx) := by
  unfold domainInfo
  refine Moves.bind Moves.get fun st => ?_
  split
  · exact Moves.pure _
  refine Moves.bind (Moves.mapM fun x _ => ?_) fun tileVars =>
    Moves.bind (Moves.mapM fun y _ => ?_) fun forward => Moves.bind (calm_memo fun _ => rfl) fun _ =>
      Moves.pure _
  · obtain ⟨dom, k⟩ := x
    dsimp only
    split
    · exact Moves.bind (Moves.throw _) fun _ => calm_buildSolved _
    · exact calm_buildSolved _
  · obtain ⟨tv, k⟩ := y
    dsimp only
    split
    · exact Builds.mul _ _
    · exact Moves.pure _

theorem calm_placeBuffer (id level firstPos : Nat) (backward : List (List Nat)) (b : BufferResult) :
    Moves Calm (placeBuffer id level firstPos backward b) := by
  intro s tb s' h
  unfold placeBuffer at h
  rw [runs_bind] at h
  obtain ⟨rows, s₁, hrows, h⟩ := h
  have hs₁ : Calm s s₁ := (Moves.mapM fun _ _ => Moves.bind (Moves.mapM fun _ _ => calm_build _) fun _ =>
    Moves.bind (Moves.tree _) fun _ => Moves.bind (moves_shapeAndSize _ _ _) fun _ => Moves.pure _) _ _ _ hrows
  rw [runs_bind] at h
  obtain ⟨st, s₂, hget, h⟩ := h
  obtain ⟨rfl, rfl⟩ := runs_get.1 hget
  split at h
  · simp only [runs_bind, runs_set, runs_pure] at h
    obtain ⟨_, _, rfl, rfl, rfl⟩ := h
    exact hs₁.trans ⟨rfl, rfl, rfl⟩
  · obtain ⟨_, _, h, -⟩ := runs_bind.1 h
    exact absurd h not_runs_throw

theorem runs_visitLeaf {g : Dataflow} {tgt : Target} {id : Nat} {leaf : OpLeaf} {ctx : InitContext}
    {s s' : SolveState} {r : InitResult} (hfresh : s.results.getD id none = none)
    (h : Runs (visitLeaf g tgt id leaf ctx) s r s') :
    ∃ op, g.ops[leaf.op]? = some op ∧
      r.buffers.map BufferResult.entry = (List.range op.numBuffers).map (fun i =>
        ⟨⟨op.id, i⟩, [⟨op.id, i⟩], ⟨s.clock, s.clock + 1⟩⟩) ∧
      s'.clock = s.clock + 2 ∧ s'.results = s.results.set! id (some r) ∧ s'.memo.tiles = s.memo.tiles := by
  unfold visitLeaf at h
  rw [runs_bind] at h
  obtain ⟨c, s₀, hc, h⟩ := h
  obtain ⟨rfl, rfl⟩ := runs_cached.1 hc
  rw [hfresh] at h
  dsimp only at h
  simp only [runs_bind] at h
  obtain ⟨op, s₁, h₁, domain, s₂, h₂, extents, s₃, h₃, t, s₄, h₄, parts, s₅, h₅, _, s₆, h₆, _, s₇, h₇,
    _, s₈, h₈, h⟩ := h
  obtain ⟨hop, rfl⟩ := runs_lift.1 h₁
  obtain ⟨rfl, rfl⟩ := runs_pure.1 h
  -- only the stamp moves the clock, only the result written changes the results
  have hs₃ : Calm s₁ s₃ := by
    refine (calm_domainInfo _ _ _ _ _ _ _ h₂).trans ((Moves.mapM fun x _ => ?_) _ _ _ h₃)
    obtain ⟨bound, d⟩ := x
    exact Moves.bind (Moves.tree _) fun _ => Moves.bind (Builds.scale _ _) fun _ =>
      Moves.bind (Builds.const _) fun _ => Moves.bind (Builds.addEqual _ _) fun _ =>
        Moves.bind (Moves.tree _) fun _ => Builds.scale _ _
  obtain ⟨rfl, rfl⟩ := Prod.mk.inj (runs_modifyGet.1 h₄)
  have hs₅ : Calm { s₃ with clock := s₃.clock + 2 } s₅ := by
    refine (Moves.mapM fun index _ => ?_) _ _ _ h₅
    split
    · exact Moves.bind (moves_shapeAndSize _ _ _) fun _ => Moves.pure _
    · exact Moves.throw _
  -- every buffer's entry is known by itself and live for the stamp taken
  have hentries : parts.map (fun p => p.1.entry) = (List.range op.numBuffers).map fun i =>
      (⟨⟨op.id, i⟩, [⟨op.id, i⟩], ⟨s₃.clock, s₃.clock + 1⟩⟩ : AliasEntry) := by
    refine runs_mapM_map (fun index _ t y t' hy => ?_) h₅
    split at hy
    · rw [runs_bind] at hy
      obtain ⟨⟨shape, size⟩, t₁, -, hy⟩ := hy
      obtain ⟨rfl, -⟩ := runs_pure.1 hy
      rfl
    · exact absurd hy not_runs_throw
  have hs₇ : Calm s₅ s₇ := by
    refine (calm_record _ _ _ _ _ _ h₆).trans ?_
    obtain rfl := runs_memo.1 h₇
    exact ⟨rfl, rfl, rfl⟩
  obtain rfl := runs_modify.1 h₈
  refine ⟨op, Dataflow.op_eq_ok.1 hop, ?_, ?_, ?_, ?_⟩
  · rw [List.map_map, ← hs₃.clock]
    exact hentries
  · simp [hs₇.clock, hs₅.clock, hs₃.clock]
  · simp [hs₇.results, hs₅.results, hs₃.results]
  · simp [hs₇.tiles, hs₅.tiles, hs₃.tiles]

theorem placeBuffer_entry {id level firstPos : Nat} {backward : List (List Nat)} {b : BufferResult}
    {s s' : SolveState} {tb : TileBuffer} (h : Runs (placeBuffer id level firstPos backward b) s tb s') :
    tb.entry = b.entry := by
  unfold placeBuffer at h
  simp only [runs_bind] at h
  obtain ⟨rows, s₁, -, t, s₂, -, h⟩ := h
  split at h
  · simp only [runs_bind, runs_set, runs_pure] at h
    obtain ⟨_, _, -, rfl, -⟩ := h
    rfl
  · obtain ⟨_, _, h, -⟩ := runs_bind.1 h
    exact absurd h not_runs_throw

theorem runs_finishTile_report {g : Dataflow} {tgt : Target} {t : TileTree} {id : Nat} {tile : TileNode}
    {ctx : InitContext} {domain : DomainInfo} {children : List (Nat × InitResult)} {s s' : SolveState}
    {r : InitResult} {stamp : Nat → Nat} {ops : List Nat}
    (hal : Aliased g stamp ops ((children.flatMap (·.2.buffers)).map BufferResult.entry))
    (hops : ∀ a ∈ ops, ∃ op, g.ops[a]? = some op)
    (h : Runs (finishTile g tgt t id tile ctx domain children) s r s') :
    ∃ info : TileInfo, AliasReport g stamp ops (info.buffers.map TileBuffer.entry) ∧
      r.buffers.map BufferResult.entry = info.buffers.map TileBuffer.entry ∧ s'.clock = s.clock ∧
      s'.results = s.results.set! id (some r) ∧ s'.memo.tiles = s.memo.tiles.set! id (some info) := by
  unfold finishTile at h
  simp only [runs_bind] at h
  obtain ⟨inner, s₁, h₁, backward, s₂, h₂, h⟩ := h
  rw [runs_ite_bind] at h
  obtain ⟨_, s₃, h₃, h⟩ := runs_bind.1 h
  simp only [runs_bind] at h
  obtain ⟨lifted, s₄, h₄, ⟨buffers, defUse⟩, s₅, h₅, placed, s₆, h₆, _, s₇, h₇, _, s₈, h₈, _, s₉, h₉,
    h₁₀⟩ := h
  obtain ⟨rfl, rfl⟩ := runs_pure.1 h₁₀
  -- the extents, the pinned bounds and the lifting only build
  have hs₃ : Calm s s₃ := by
    refine (moves_childExtents (R := Calm) _ _ _ _ _ _ _ h₁).trans
      ((moves_backwardRows (R := Calm) _ _ _ _ _ h₂).trans ?_)
    refine (?_ : Moves Calm _) _ _ _ h₃
    split
    · refine Moves.forIn _ fun x _ _ => ?_
      exact Moves.bind (Builds.const _) fun _ => Moves.bind (Moves.tree _) fun _ =>
        Moves.bind (Moves.tree _) fun _ => Moves.bind (Builds.addEqual _ _) fun _ => Moves.pure _
    · exact Moves.pure _
  have hs₄ : Calm s₃ s₄ := by
    refine (Moves.foldlM _ fun x _ acc => Moves.bind (Moves.tree _) fun _ => ?_) _ _ _ h₄
    split
    · exact Moves.bind (Moves.mapM fun _ _ => Moves.bind (Moves.lift _) fun _ => Moves.pure _)
        fun _ => Moves.pure _
    · exact Moves.throw _
  -- lifting changes access maps only
  have hlifted : lifted.map BufferResult.entry = (children.flatMap (·.2.buffers)).map BufferResult.entry := by
    have := runs_foldlM_done (J := fun done (acc : List BufferResult) =>
        acc.map BufferResult.entry = (done.flatMap (·.2.buffers)).map BufferResult.entry) []
      (fun x _ done acc u r' u' hJ hr => ?_) rfl h₄
    · simpa using this
    rw [runs_bind] at hr
    obtain ⟨rel, u₁, -, hr⟩ := hr
    split at hr
    · rw [runs_bind] at hr
      obtain ⟨bs, u₂, hbs, hr⟩ := hr
      obtain ⟨rfl, -⟩ := runs_pure.1 hr
      have hbs' : bs.map BufferResult.entry = x.2.buffers.map BufferResult.entry := by
        refine runs_mapM_map (fun b _ v y v' hy => ?_) hbs
        rw [runs_bind] at hy
        obtain ⟨_, v₁, -, hy⟩ := hy
        obtain ⟨rfl, -⟩ := runs_pure.1 hy
        rfl
      simp [List.map_append, hJ, hbs']
    · exact absurd hr not_runs_throw
  have hreport := resolveDefUse_report (hlifted ▸ hal) hops h₅
  have hs₅ : Calm s₄ s₅ := moves_resolveDefUse (R := Calm) _ _ _ _ _ h₅
  have hs₆ : Calm s₅ s₆ := (Moves.mapM fun _ _ => calm_placeBuffer _ _ _ _ _) _ _ _ h₆
  have hplaced : placed.map TileBuffer.entry = buffers.map BufferResult.entry :=
    runs_mapM_map (fun _ _ _ _ _ hb => placeBuffer_entry hb) h₆
  have hs₇ : Calm s₆ s₇ := calm_record _ _ _ _ _ _ h₇
  obtain rfl := runs_memo.1 h₈
  obtain rfl := runs_modify.1 h₉
  have hs : Calm s s₇ := hs₃.trans (hs₄.trans (hs₅.trans (hs₆.trans hs₇)))
  refine ⟨⟨defUse, placed, backward⟩, hplaced ▸ hreport, hplaced.symm, hs.clock, ?_, ?_⟩
  · simp [hs.results]
  · simp [hs.tiles]

/-! The walk. -/

section Walk

variable {g : Dataflow} {tgt : Target} {stamp : Nat → Nat}

def Unvisited (ids : List Nat) (s : SolveState) : Prop :=
  ∀ j ∈ ids, s.results.getD j none = none ∧ j < s.results.size ∧ j < s.memo.tiles.size

variable (g stamp) in
/-- What a walk leaves after visiting the subtrees with positions `ids`, leaves `leaves` and
subtrees `subs`, from `s` to `s'` with buffers `bs`: the clock two steps on per leaf, the results
and tile memo outside `ids` as they were, every leaf's operation in the graph, the buffers aliased
over the leaves, and an alias report at every tile. -/
structure Walked (ids : List Nat) (leaves : List (Nat × Nat)) (subs : List Subtree) (s : SolveState)
    (bs : List BufferResult) (s' : SolveState) : Prop where
  clock : s'.clock = s.clock + 2 * leaves.length
  results : ∀ j ∉ ids, s'.results.getD j none = s.results.getD j none
  results_size : s'.results.size = s.results.size
  tiles : ∀ j ∉ ids, s'.memo.tile? j = s.memo.tile? j
  tiles_size : s'.memo.tiles.size = s.memo.tiles.size
  ops : ∀ a ∈ leaves.map Prod.fst, ∃ op, g.ops[a]? = some op
  report : Aliased g stamp (leaves.map Prod.fst) (bs.map BufferResult.entry)
  tile : ∀ N ∈ subs, ∀ n, N.kind = .tile n → ∃ info, s'.memo.tile? N.id = some info ∧
    AliasReport g stamp (N.leaves.map Prod.fst) (info.buffers.map TileBuffer.entry)

namespace Walked

variable {ids ids' : List Nat} {leaves leaves' : List (Nat × Nat)} {subs subs' : List Subtree}
  {s t u : SolveState} {bs bs' : List BufferResult}

theorem nil (s : SolveState) : Walked g stamp [] [] [] s [] s :=
  ⟨by simp, fun _ _ => rfl, rfl, fun _ _ => rfl, rfl, by simp, aliased_nil, by simp⟩

theorem append (h₁ : Walked g stamp ids leaves subs s bs t) (h₂ : Walked g stamp ids' leaves' subs' t bs' u)
    (hdis : ∀ N ∈ subs, N.id ∉ ids') :
    Walked g stamp (ids ++ ids') (leaves ++ leaves') (subs ++ subs') s (bs ++ bs') u := by
  refine ⟨by rw [h₂.clock, h₁.clock, List.length_append]; ring, fun j hj => ?_,
    h₂.results_size.trans h₁.results_size, fun j hj => ?_, h₂.tiles_size.trans h₁.tiles_size, ?_, ?_,
    fun N hN n hn => ?_⟩
  · rw [List.mem_append, not_or] at hj
    rw [h₂.results j hj.2, h₁.results j hj.1]
  · rw [List.mem_append, not_or] at hj
    rw [h₂.tiles j hj.2, h₁.tiles j hj.1]
  · rw [List.map_append]
    intro a ha
    rcases List.mem_append.1 ha with ha | ha
    · exact h₁.ops a ha
    · exact h₂.ops a ha
  · rw [List.map_append, List.map_append]
    exact h₁.report.append h₂.report
  · rcases List.mem_append.1 hN with hN | hN
    · rw [h₂.tiles _ (hdis N hN)]
      exact h₁.tile N hN n hn
    · exact h₂.tile N hN n hn

theorem of_calm (hc : Calm s t) (h : Walked g stamp ids leaves subs t bs u) :
    Walked g stamp ids leaves subs s bs u := by
  refine ⟨by rw [h.clock, hc.clock], fun j hj => ?_, by rw [h.results_size, hc.results], fun j hj => ?_,
    by rw [h.tiles_size, hc.tiles], h.ops, h.report, h.tile⟩
  · rw [h.results j hj, hc.results]
  · rw [h.tiles j hj, SolveMemo.tile?, hc.tiles]
    rfl

theorem unvisited (h : Walked g stamp ids leaves subs s bs t) {ids' : List Nat} (hu : Unvisited ids' s)
    (hdis : ∀ j ∈ ids', j ∉ ids) : Unvisited ids' t := fun j hj => by
  rw [h.results j (hdis j hj), h.results_size, h.tiles_size]
  exact hu j hj

end Walked

theorem stamps_append {l₁ l₂ : List (Nat × Nat)} {c : Nat}
    (h : (l₁ ++ l₂).map (fun l => stamp l.1) = List.range' c (l₁ ++ l₂).length 2) :
    l₁.map (fun l => stamp l.1) = List.range' c l₁.length 2 ∧
      l₂.map (fun l => stamp l.1) = List.range' (c + 2 * l₁.length) l₂.length 2 := by
  rw [List.map_append, List.length_append, ← List.range'_append] at h
  exact List.append_inj h (by simp)

theorem walked_leaf (hid : ∀ a (op : OpNode), g.ops[a]? = some op → op.id = a) {i : Nat} {o : OpLeaf}
    {ctx : InitContext} {s s' : SolveState} {r : InitResult} (hu : Unvisited [i] s)
    (hstamp : stamp o.op = s.clock) (h : Runs (visitLeaf g tgt i o ctx) s r s') :
    Walked g stamp [i] [(o.op, i)] [.node i (.leaf o) []] s r.buffers s' := by
  obtain ⟨hfresh, hsize, -⟩ := hu i List.mem_cons_self
  obtain ⟨op, hop, hentries, hclock, hresults, htiles⟩ := runs_visitLeaf hfresh h
  refine ⟨by simp [hclock], fun j hj => ?_, by simp [hresults], fun j _ => ?_, by simp [htiles], ?_, ?_, ?_⟩
  · rw [List.mem_singleton] at hj
    rw [hresults, getD_set!, if_neg fun h' => hj h'.1]
  · simp [SolveMemo.tile?, htiles]
  · simpa using ⟨op, hop⟩
  · rw [hentries, hid _ _ hop, ← hstamp]
    exact aliased_leaf hop
  · simp

theorem walked_tile {e : TileTree} {i : Nat} {n : TileNode} {cs : List Subtree} {ctx : InitContext}
    {domain : DomainInfo} {children : List (Nat × InitResult)} {s s' : SolveState} {r : InitResult}
    (hnd : (Subtree.node i (.tile n) cs).ids.Nodup) (hsize : i < s.results.size ∧ i < s.memo.tiles.size)
    {t : SolveState} (hw : Walked g stamp (cs.map Subtree.ids).flatten (cs.map Subtree.leaves).flatten
      (cs.flatMap Subtree.subs) s (children.flatMap (·.2.buffers)) t)
    (h : Runs (finishTile g tgt e i n ctx domain children) t r s') :
    Walked g stamp (Subtree.node i (.tile n) cs).ids (Subtree.node i (.tile n) cs).leaves
      (Subtree.node i (.tile n) cs).subs s r.buffers s' := by
  have hleaves : (Subtree.node i (.tile n) cs).leaves = (cs.map Subtree.leaves).flatten := by
    simp [Subtree.leaves_node, Subtree.leafEntry]
  rw [Subtree.ids_node, List.nodup_cons] at hnd
  obtain ⟨info, hreport, hentries, hclock, hresults, htiles⟩ :=
    runs_finishTile_report hw.report hw.ops h
  have hsize' : i < t.results.size ∧ i < t.memo.tiles.size := by
    rw [hw.results_size, hw.tiles_size]
    exact hsize
  rw [hleaves, Subtree.ids_node, Subtree.subs_node]
  refine ⟨by rw [hclock, hw.clock], fun j hj => ?_, by simp [hresults, hw.results_size], fun j hj => ?_,
    by simp [htiles, hw.tiles_size], hw.ops, hentries ▸ hreport.toAliased, fun N hN m hm => ?_⟩
  · rw [List.mem_cons, not_or] at hj
    rw [hresults, getD_set!, if_neg fun h' => hj.1 h'.1, hw.results j hj.2]
  · rw [List.mem_cons, not_or] at hj
    rw [SolveMemo.tile?, htiles, getD_set!, if_neg fun h' => hj.1 h'.1, ← hw.tiles j hj.2]
    rfl
  · rcases List.mem_cons.1 hN with rfl | hN
    · -- the tile itself holds the report just written
      refine ⟨info, ?_, by rw [hleaves]; exact hreport⟩
      rw [SolveMemo.tile?, htiles, getD_set!, if_pos ⟨rfl, hsize'.2⟩]
    · -- a tile below keeps the report written when it was visited
      obtain ⟨info', hinfo', hreport'⟩ := hw.tile N hN m hm
      have hNids : N.id ∈ (cs.map Subtree.ids).flatten := by
        obtain ⟨c, hc, hNc⟩ := List.mem_flatMap.1 hN
        exact List.mem_flatten.2 ⟨c.ids, List.mem_map_of_mem hc, List.mem_map_of_mem hNc⟩
      have hne : N.id ≠ i := fun heq => hnd.1 (heq ▸ hNids)
      refine ⟨info', ?_, hreport'⟩
      rw [SolveMemo.tile?, htiles, getD_set!, if_neg fun h' => hne h'.1]
      exact hinfo'

theorem walked_children {F : Nat → Solving (Nat × InitResult)} :
    ∀ {cs : List Subtree}, (∀ c ∈ cs, ∀ {s s' : SolveState} {y : Nat × InitResult}, Unvisited c.ids s →
        c.leaves.map (fun l => stamp l.1) = List.range' s.clock c.leaves.length 2 →
        Runs (F c.id) s y s' → Walked g stamp c.ids c.leaves c.subs s y.2.buffers s') →
      (cs.map Subtree.ids).flatten.Nodup →
      ∀ {s s' : SolveState} {ys : List (Nat × InitResult)}, Unvisited (cs.map Subtree.ids).flatten s →
        (cs.map Subtree.leaves).flatten.map (fun l => stamp l.1) =
          List.range' s.clock (cs.map Subtree.leaves).flatten.length 2 →
        Runs ((cs.map Subtree.id).mapM F) s ys s' →
        Walked g stamp (cs.map Subtree.ids).flatten (cs.map Subtree.leaves).flatten (cs.flatMap Subtree.subs) s
          (ys.flatMap (·.2.buffers)) s'
  | [], _, _, s, _, _, _, _, h => by
    obtain ⟨rfl, rfl⟩ := runs_pure.1 h
    exact Walked.nil s
  | c :: cs, hF, hnd, s, s', ys, hu, hstamp, h => by
    rw [List.map_cons] at h
    obtain ⟨y, t, ys', hy, hrest, rfl⟩ := runs_mapM_cons.1 h
    rw [List.map_cons, List.flatten_cons] at hnd hu hstamp ⊢
    rw [List.map_cons, List.flatten_cons, List.flatMap_cons, List.flatMap_cons]
    obtain ⟨hst₁, hst₂⟩ := stamps_append hstamp
    obtain ⟨-, hnd', hdis⟩ := List.nodup_append.1 hnd
    have hw₁ := hF c List.mem_cons_self (fun j hj => hu j (List.mem_append_left _ hj)) hst₁ hy
    -- the later children are still unvisited after the first
    have hu' := hw₁.unvisited (fun j hj => hu j (List.mem_append_right _ hj))
      fun j hj hjc => hdis j hjc j hj rfl
    have hw₂ := walked_children (fun c' hc' => hF c' (List.mem_cons_of_mem _ hc')) hnd' hu'
      (by rw [hw₁.clock]; exact hst₂) hrest
    exact hw₁.append hw₂ fun N hN hN' => hdis _ (List.mem_map_of_mem hN) _ hN' rfl

theorem walked_visit (hid : ∀ a (op : OpNode), g.ops[a]? = some op → op.id = a) {e : TileTree} (Q : Subtree) :
    ∀ {L f : Nat} {ctx : InitContext} {s s' : SolveState} {r : InitResult},
      e.Realizes Q → Q.ids.Nodup → Q.Tiled L → Q.ids.length ≤ f → Unvisited Q.ids s →
      Q.leaves.map (fun l => stamp l.1) = List.range' s.clock Q.leaves.length 2 →
      Runs (visit g tgt e f Q.id ctx) s r s' → Walked g stamp Q.ids Q.leaves Q.subs s r.buffers s' := by
  induction Q with
  | _ i k cs ih =>
    intro L f ctx s s' r hQ hnd htiled hf hu hstamp h
    cases f with
    | zero => simp [Subtree.ids_node] at hf
    | succ f =>
      rw [Subtree.id_node, visit, runs_bind] at h
      obtain ⟨k', s₀, hk, h⟩ := h
      obtain ⟨hk', hs₀⟩ := runs_tree.1 hk
      subst s₀
      obtain rfl : k = k' := Except.ok.inj (hQ.kind_eq.symm.trans hk')
      cases htiled with
      | @leaf _ _ o =>
        have hleaves : (Subtree.node i (.leaf o) []).leaves = [(o.op, i)] := by
          simp [Subtree.leaves_node, Subtree.leafEntry]
        have hids : (Subtree.node i (.leaf o) []).ids = [i] := by simp [Subtree.ids_node]
        rw [hleaves] at hstamp ⊢
        rw [hids] at hu ⊢
        rw [Subtree.subs_node, List.flatMap_nil]
        exact walked_leaf hid hu (by simpa using hstamp) h
      | @tile _ _ n _ hpos hlt hcs =>
        dsimp only at h
        rw [runs_bind] at h
        obtain ⟨c, s₀, hc, h⟩ := h
        obtain ⟨rfl, hs₀⟩ := runs_cached.1 hc
        subst s₀
        obtain ⟨hfresh, hsize⟩ := hu i (Subtree.id_mem_ids _)
        rw [hfresh] at h
        dsimp only at h
        simp only [runs_bind] at h
        obtain ⟨domain, s₁, h₁, cids, s₂, hcids, children, s₃, h₃, h₄⟩ := h
        obtain ⟨hcids', hs₂⟩ := runs_tree.1 hcids
        subst s₂
        obtain rfl : cs.map Subtree.id = cids := Except.ok.inj (hQ.children_eq.symm.trans hcids')
        have hs₁ : Calm s s₁ := calm_domainInfo _ _ _ _ _ _ _ h₁
        have hnd' := hnd
        rw [Subtree.ids_node, List.nodup_cons] at hnd'
        have hu₁ : Unvisited (cs.map Subtree.ids).flatten s₁ := fun j hj => by
          rw [hs₁.results, hs₁.tiles]
          exact hu j (by rw [Subtree.ids_node]; exact List.mem_cons_of_mem _ hj)
        have hleaves : (Subtree.node i (.tile n) cs).leaves = (cs.map Subtree.leaves).flatten := by
          simp [Subtree.leaves_node, Subtree.leafEntry]
        refine (walked_tile hnd (by rw [hs₁.results, hs₁.tiles]; exact hsize)
          (walked_children (fun c hc s s' y hu hst hy => ?_) hnd'.2 hu₁
            (by rw [hs₁.clock, ← hleaves]; exact hstamp) h₃) h₄).of_calm hs₁
        -- each child is walked by the induction hypothesis
        rw [runs_bind] at hy
        obtain ⟨res, t, hres, hy⟩ := hy
        obtain ⟨rfl, rfl⟩ := runs_pure.1 hy
        have hlen := Subtree.length_ids_child (S := .node i (.tile n) cs) hc
        exact ih c hc (hQ.child hc).1 (Subtree.nodup_of_mem_subs hnd (Subtree.mem_subs_of_mem_children hc))
          (hcs c hc) (by omega) hu hst hres

end Walk

end Init

end TileSched
