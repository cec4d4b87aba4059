import TileSched.Proofs.Schedule.Capacity
/-! A solved tree respects every capacity. The steps after the capacity pass only grow the model
(the objective) or only read it (the search, the read-back); the search answers with an assignment
of the model that sets one boolean of every placed buffer; and reading back reports, for every
buffer entry, the level and the size of the position that boolean chooses. So the reported sizes
at a level, of the buffers live together at a tile and the tiles above it, add up to what the
posted constraint bounds. -/

namespace TileSched

open Solving

/-- What reading back reports of buffer entry `x` of node `x.1`: the entry's identities and
lifetime, and the position, level, size and bytes moved of the placement the solution chooses. -/
structure ReadBack (sol : Solution) (x : Nat × TileBuffer) (p : BufferPlacement) : Prop where
  node : p.node = x.1
  buffer : p.buffer = x.2.id
  aliases : p.aliases = x.2.aliases
  lifetime : p.lifetime = x.2.lifetime
  chosen : ∃ e, x.2.chosen sol = some (p.createLoop, p.level, e)
  size : ∃ sz, x.2.sizes[p.createLoop - x.2.firstPos]? = some sz ∧ p.sizeBytes = sol.value sz
  moved : ∃ w, x.2.writes[p.createLoop - x.2.firstPos]? = some w ∧ p.writeBytes = sol.value w

theorem ReadBack.chosenBytes {sol : Solution} {x : Nat × TileBuffer} {p : BufferPlacement}
    (h : ReadBack sol x p) (sl : Nat) : (if p.level = sl then p.sizeBytes else 0) = x.2.chosenBytes sol sl := by
  obtain ⟨e, he⟩ := h.chosen
  obtain ⟨sz, hsz, hbytes⟩ := h.size
  rw [TileBuffer.chosenBytes, he]
  dsimp only
  rw [TileBuffer.sizeAt, List.getD_eq_getElem?_getD, hsz, Option.getD_some, hbytes]

namespace Tiler

theorem steady_movedTerms (tgt : Target) (bufs : List TileBuffer) : Moves Steady (movedTerms tgt bufs) :=
  Moves.flatMapM fun _ _ => Moves.mapM fun _ _ =>
    Moves.bind (Moves.tree _) fun _ => Moves.bind (steady_mul _ _) fun _ => Moves.pure _

theorem steady_objective (tl : Tiler) (t : TileTree) : Moves Steady (tl.objective t) := by
  unfold objective
  exact Moves.bind Moves.get fun _ => Moves.bind (steady_movedTerms _ _) fun _ =>
    Moves.bind (steady_record _ _ _) fun _ => steady_linear _ _

theorem minimizeLogged_snd (m : Model) (obj : Nat) (budget : Budget) :
    (m.minimizeLogged obj budget).2 = m.minimize obj budget := by
  unfold Model.minimizeLogged Model.minimize
  split <;> simp_all [bind, Except.bind]

theorem runs_minimize {tl : Tiler} {obj : Nat} {s s' : SolveState} {sol : Solution}
    (h : Runs (tl.minimize obj) s sol s') : Reads s s' ∧ s.model.minimize obj tl.budget = .ok sol := by
  unfold minimize at h
  obtain ⟨st, t₀, hget, h₁⟩ := runs_bind.1 h
  obtain ⟨hst, ht₀⟩ := runs_get.1 hget
  subst st t₀
  have hsnd := minimizeLogged_snd s.model obj tl.budget
  rcases hml : s.model.minimizeLogged obj tl.budget with ⟨recs, r⟩
  rw [hml] at h₁ hsnd
  obtain ⟨_, t₁, hrecs, h₂⟩ := runs_bind.1 h₁
  have hreads : Reads s t₁ :=
    Moves.forIn _ (fun rc _ _ => Moves.bind (reads_record _ _ _) fun _ => Moves.pure _) _ _ _ hrecs
  cases r with
  | ok sol' =>
    obtain ⟨rfl, rfl⟩ := runs_pure.1 h₂
    exact ⟨hreads, hsnd.symm⟩
  | error e => exact absurd h₂ not_runs_throw

theorem runs_extract {tl : Tiler} {t : TileTree} {sol : Solution} {s s' : SolveState} {st : SolvedTree}
    (h : Runs (tl.extract t sol) s st s') : Reads s s' ∧
      List.Forall₂ (ReadBack sol) (s.memo.tileNodes.flatMap fun (id, info) => info.buffers.map (id, ·))
        st.placements ∧ st.objective = sol.objective := by
  unfold extract at h
  obtain ⟨s₀, t₀, hget, h₁⟩ := runs_bind.1 h
  obtain ⟨hs₀, ht₀⟩ := runs_get.1 hget
  subst s₀ t₀
  obtain ⟨ids, t₁, hpre, h₂⟩ := runs_bind.1 h₁
  obtain ⟨-, rfl⟩ := runs_tree.1 hpre
  obtain ⟨placements, t₂, hplace, h₃⟩ := runs_bind.1 h₂
  obtain ⟨rfl, rfl⟩ := runs_pure.1 h₃
  have key := Moves.mapM_forall₂ (R := Reads) (I := fun _ => True) (Q := fun x p _ => ReadBack sol x p)
    (fun _ _ _ _ => trivial) (fun _ _ _ _ hq _ => hq) ?moves ?step hplace
  case moves =>
    rintro ⟨id, b⟩ -
    dsimp only
    split
    · exact Moves.bind (Moves.tree _) fun _ => Moves.bind (Moves.tree _) fun _ =>
        Moves.bind (Moves.tree _) fun _ => Moves.pure _
    · exact Moves.throw _
  case step =>
    rintro ⟨id, b⟩ - t₃ p t₄ - hrun
    dsimp only at hrun
    split at hrun
    · rename_i pos sl e hfind
      obtain ⟨size, t₅, hsize, hrun₁⟩ := runs_bind.1 hrun
      obtain ⟨hs, rfl⟩ := runs_tree.1 hsize
      obtain ⟨moved, t₆, hmoved, hrun₂⟩ := runs_bind.1 hrun₁
      obtain ⟨hm, rfl⟩ := runs_tree.1 hmoved
      obtain ⟨q, t₇, hq, hrun₃⟩ := runs_bind.1 hrun₂
      obtain ⟨-, rfl⟩ := runs_tree.1 hq
      obtain ⟨rfl, rfl⟩ := runs_pure.1 hrun₃
      exact ⟨rfl, rfl, rfl, rfl, ⟨e, hfind⟩, ⟨size, itemAt_eq_ok.1 hs, rfl⟩, ⟨moved, itemAt_eq_ok.1 hm, rfl⟩⟩
    · exact absurd hrun not_runs_throw
  exact ⟨key.1, key.2 trivial, rfl⟩

end Tiler

theorem SolveMemo.tileNodes_keys_nodup (mm : SolveMemo) : (mm.tileNodes.map (·.1)).Nodup := by
  have h : (mm.tiles.toList.zipIdx.map (·.2)).Nodup := by
    rw [List.zipIdx_map_snd]
    exact List.nodup_range'
  rw [List.Nodup, List.pairwise_map] at h ⊢
  unfold SolveMemo.tileNodes
  refine h.filterMap _ fun ⟨o, i⟩ ⟨o', j⟩ hij a ha b hb => ?_
  cases o <;> cases o' <;> simp only [Option.map_none, Option.map_some, reduceCtorEq,
    Option.some.injEq] at ha hb
  subst ha hb
  exact hij

theorem sum_ite_fst_of_mem {β : Type} (F : Nat × β → Int) {a : Nat} {y : β} :
    ∀ {M : List (Nat × β)}, (M.map (·.1)).Nodup → (a, y) ∈ M →
      (M.map fun x => if x.1 = a then F x else 0).sum = F (a, y)
  | [], _, hy => absurd hy List.not_mem_nil
  | x :: M, hnd, hy => by
    rw [List.map_cons, List.nodup_cons] at hnd
    rw [List.map_cons, List.sum_cons]
    rcases List.mem_cons.1 hy with rfl | hy
    · -- no later entry has the key
      have hrest : (M.map fun x => if x.1 = a then F x else 0).sum = 0 := by
        refine List.sum_eq_zero fun z hz => ?_
        obtain ⟨x', hx', rfl⟩ := List.mem_map.1 hz
        have hmem : x'.1 ∈ M.map (·.1) := List.mem_map_of_mem hx'
        have hne : x'.1 ≠ a := fun h => hnd.1 (by rw [← h]; exact hmem)
        rw [if_neg hne]
      simp [hrest]
    · have hmem : a ∈ M.map (·.1) := List.mem_map_of_mem (f := (·.1)) hy
      have hx : x.1 ≠ a := fun h => hnd.1 (by rw [h]; exact hmem)
      rw [if_neg hx, sum_ite_fst_of_mem F hnd.2 hy, zero_add]

theorem sum_ite_fst_of_not_mem {β : Type} (F : Nat × β → Int) {a : Nat} {M : List (Nat × β)}
    (h : ∀ y, (a, y) ∉ M) : (M.map fun x => if x.1 = a then F x else 0).sum = 0 := by
  refine List.sum_eq_zero fun z hz => ?_
  obtain ⟨⟨i, y⟩, hx, rfl⟩ := List.mem_map.1 hz
  rw [if_neg]
  rintro rfl
  exact h y hx

theorem SolveMemo.sum_tileNodes_mem (mm : SolveMemo) (G : TileInfo → Int) :
    ∀ {L : List Nat}, L.Nodup →
      (mm.tileNodes.map fun x => if x.1 ∈ L then G x.2 else 0).sum = ((L.filterMap mm.tile?).map G).sum
  | [], _ => by simp
  | a :: L, hnd => by
    rw [List.nodup_cons] at hnd
    -- a tile's node is the head or in the rest, not both
    have hsplit : ∀ x : Nat × TileInfo, (if x.1 ∈ a :: L then G x.2 else 0) =
        (if x.1 = a then G x.2 else 0) + (if x.1 ∈ L then G x.2 else 0) := by
      intro x
      by_cases hx : x.1 = a
      · simp [hx, hnd.1]
      · simp [hx]
    rw [List.map_congr_left fun x _ => hsplit x, List.sum_map_add, SolveMemo.sum_tileNodes_mem mm G hnd.2,
      List.filterMap_cons]
    cases ha : mm.tile? a with
    | none =>
      rw [sum_ite_fst_of_not_mem (fun x => G x.2) fun y hy => by simp [SolveMemo.mem_tileNodes.1 hy] at ha,
        zero_add]
    | some info =>
      rw [sum_ite_fst_of_mem (fun x => G x.2) mm.tileNodes_keys_nodup (SolveMemo.mem_tileNodes.2 ha),
        List.map_cons, List.sum_cons]

theorem sum_map_filter {α : Type} (l : List α) (p : α → Bool) (f : α → Int) :
    ((l.filter p).map f).sum = (l.map fun x => if p x then f x else 0).sum := by
  rw [List.sum_map_ite]
  simp

theorem sum_map_flatMap {α β : Type} (l : List α) (g : α → List β) (f : β → Int) :
    ((l.flatMap g).map f).sum = (l.map fun x => ((g x).map f).sum).sum := by
  rw [List.map_flatMap, List.flatMap_def, List.sum_flatten, List.map_map]
  rfl

theorem sum_placements_eq {sol : Solution} {sl : Nat} (onNode : Nat → Bool) (L : Lifetime) :
    ∀ {pairs : List (Nat × TileBuffer)} {ps : List BufferPlacement}, List.Forall₂ (ReadBack sol) pairs ps →
      ((ps.filter fun p => onNode p.node && p.level == sl && p.lifetime.overlaps L).map (·.sizeBytes)).sum =
        (pairs.map fun x => if onNode x.1 && x.2.lifetime.overlaps L then x.2.chosenBytes sol sl else 0).sum
  | [], [], .nil => rfl
  | x :: pairs, p :: ps, .cons hx h => by
    rw [List.map_cons, List.sum_cons, ← sum_placements_eq onNode L h, ← hx.chosenBytes sl, ← hx.node,
      ← hx.lifetime, List.filter_cons]
    by_cases hon : onNode p.node <;> by_cases hov : p.lifetime.overlaps L <;> by_cases hsl : p.level = sl <;>
      simp [hon, hov, hsl]

theorem SolveMemo.sum_pairs_eq (mm : SolveMemo) {N : Nat} {info : TileInfo} (hN : mm.tile? N = some info)
    {l : List Nat} (hnd : (N :: l).Nodup) (b : TileBuffer) (F : TileBuffer → Int) :
    ((mm.tileNodes.flatMap fun (id, info) => info.buffers.map (id, ·)).map fun x =>
        if (x.1 == N || l.contains x.1) && x.2.lifetime.overlaps b.lifetime then F x.2 else 0).sum =
      ((info.liveWith (l.filterMap mm.tile?) b).map F).sum := by
  -- both sides add, tile by tile, the live entries of the tiles at the nodes
  have hlive : ∀ T : TileInfo, ((T.buffers.filter (·.lifetime.overlaps b.lifetime)).map F).sum =
      (T.buffers.map fun b' => if b'.lifetime.overlaps b.lifetime then F b' else 0).sum :=
    fun T => sum_map_filter _ _ _
  have htile : ∀ x : Nat × TileInfo,
      ((x.2.buffers.map (x.1, ·)).map fun y : Nat × TileBuffer =>
          if (y.1 == N || l.contains y.1) && y.2.lifetime.overlaps b.lifetime then F y.2 else 0).sum =
        if x.1 ∈ N :: l then ((x.2.buffers.filter (·.lifetime.overlaps b.lifetime)).map F).sum else 0 := by
    intro x
    rw [hlive, List.map_map]
    by_cases hx : x.1 ∈ N :: l
    · have hon : x.1 = N ∨ x.1 ∈ l := List.mem_cons.1 hx
      simp [hx, hon, Function.comp_def]
    · have hon : ¬(x.1 = N ∨ x.1 ∈ l) := fun h => hx (List.mem_cons.2 h)
      simp [hx, hon, Function.comp_def]
  rw [sum_map_flatMap]
  dsimp only
  simp only [htile]
  rw [mm.sum_tileNodes_mem (fun T => ((T.buffers.filter (·.lifetime.overlaps b.lifetime)).map F).sum) hnd,
    List.filterMap_cons, hN, TileInfo.liveWith, sum_map_flatMap]


theorem SolveMemo.tileNodes_congr {mm mm' : SolveMemo} (h : mm'.tiles = mm.tiles) :
    mm'.tileNodes = mm.tileNodes := by
  simp [SolveMemo.tileNodes, h]

theorem SolveState.sound_new (n : Nat) : (SolveState.new {} n).Sound := by
  refine ⟨.empty, fun i info hi => ?_, fun i d hi => ?_⟩
  · simp only [SolveState.new, SolveMemo.empty, SolveMemo.tile?, Array.getD_eq_getD_getElem?,
      Array.getElem?_replicate] at hi
    split at hi <;> simp at hi
  · simp only [SolveState.new, SolveMemo.empty, SolveMemo.domain?, Array.getD_eq_getD_getElem?,
      Array.getElem?_replicate] at hi
    split at hi <;> simp at hi

namespace Tiler

theorem reads_noteBackend (tl : Tiler) : Moves Reads tl.noteBackend := by
  unfold noteBackend
  split
  · exact reads_record _ _ _
  · exact Moves.pure _

theorem buildModel_cases {tl : Tiler} {t : TileTree} {s s₅ : SolveState} {obj : Nat}
    (h : Runs (tl.buildModel t) s obj s₅) :
    ∃ (s₁ s₂ s₃ s₄ : SolveState) (r : InitResult),
      Reads s s₁ ∧ Runs (t.createVariables tl.dataflow tl.target) s₁ r s₂ ∧ Runs t.propagateWrites s₂ () s₃ ∧
      Runs (tl.postCapacity t) s₃ () s₄ ∧ Runs (tl.objective t) s₄ obj s₅ := by
  unfold buildModel at h
  obtain ⟨_, s₁, h₀, h₁⟩ := runs_bind.1 h
  obtain ⟨r, s₂, hcv, h₂⟩ := runs_bind.1 h₁
  obtain ⟨_, s₃, hpw, h₃⟩ := runs_bind.1 h₂
  obtain ⟨_, s₄, hpc, hobj⟩ := runs_bind.1 h₃
  exact ⟨s₁, s₂, s₃, s₄, r, reads_noteBackend tl _ _ _ h₀, hcv, hpw, hpc, hobj⟩

theorem solveTiled_cases {tl : Tiler} {t : TileTree} {s s' : SolveState} {st : SolvedTree}
    (h : Runs (tl.solveTiled t) s st s') :
    ∃ (s₁ s₂ s₃ s₄ s₅ s₆ : SolveState) (r : InitResult) (obj : Nat) (sol : Solution),
      Reads s s₁ ∧ Runs (t.createVariables tl.dataflow tl.target) s₁ r s₂ ∧ Runs t.propagateWrites s₂ () s₃ ∧
      Runs (tl.postCapacity t) s₃ () s₄ ∧ Runs (tl.objective t) s₄ obj s₅ ∧
      s₅.model.minimize obj tl.budget = .ok sol ∧ Reads s₅ s₆ ∧ Runs (tl.extract t sol) s₆ st s' := by
  unfold solveTiled at h
  obtain ⟨obj, s₅, hbuild, h₅⟩ := runs_bind.1 h
  obtain ⟨s₁, s₂, s₃, s₄, r, k₁, hcv, hpw, hpc, hobj⟩ := buildModel_cases hbuild
  obtain ⟨sol, s₆, hmin, h₆⟩ := runs_bind.1 h₅
  obtain ⟨k₆, hsol⟩ := runs_minimize hmin
  -- the search and the note of an exhausted budget only read the model and the tile memo
  obtain ⟨s₇, k₇, h₇⟩ : ∃ s₇, Reads s₆ s₇ ∧ Runs (tl.extract t sol) s₇ st s' := by
    dsimp only at h₆
    split at h₆
    · obtain ⟨_, s₇, hrec, h₇⟩ := runs_bind.1 h₆
      exact ⟨s₇, reads_record _ _ _ _ _ _ hrec, h₇⟩
    · exact ⟨s₆, Reads.refl _, h₆⟩
  exact ⟨s₁, s₂, s₃, s₄, s₅, s₇, r, obj, sol, k₁, hcv, hpw, hpc, hobj, hsol, k₆.trans k₇, h₇⟩

theorem solveTiled_model {tl : Tiler} {t : TileTree} {s s' : SolveState} {st : SolvedTree}
    (h : Runs (tl.solveTiled t) s st s') : s'.model = ((tl.buildModel t).run.run s).2.model := by
  unfold solveTiled at h
  obtain ⟨obj, s₅, hbuild, h₅⟩ := runs_bind.1 h
  obtain ⟨sol, s₆, hmin, h₆⟩ := runs_bind.1 h₅
  rw [show (tl.buildModel t).run.run s = (.ok obj, s₅) from hbuild, ← (runs_minimize hmin).1.model]
  dsimp only at h₆
  split at h₆
  · obtain ⟨_, s₇, hrec, h₇⟩ := runs_bind.1 h₆
    rw [(runs_extract h₇).1.model, (reads_record _ _ _ _ _ _ hrec).model]
  · exact (runs_extract h₆).1.model

theorem solveTiled_respects_capacity {tl : Tiler} {t : TileTree} {s s' : SolveState} {st : SolvedTree}
    (h : Runs (tl.solveTiled t) s st s') (hs : s.Sound) (hu : s'.model.Unclamped) :
    ∀ pb ∈ st.placements, ∀ lvl, t.level pb.node = .ok lvl → ∀ sl < lvl, ∀ c, tl.target.capacity sl = some c →
      ∀ q l, t.parent pb.node = .ok q → t.UpChain q l →
        ((st.placements.filter fun p => (p.node == pb.node || l.contains p.node) && p.level == sl &&
          p.lifetime.overlaps pb.lifetime).map (·.sizeBytes)).sum ≤ min (c : Int) I64.max := by
  obtain ⟨s₁, s₂, s₃, s₄, s₅, s₆, r, obj, sol, k₁, hcv, hpw, hpc, hobj, hsol, k₆, h₆⟩ := solveTiled_cases h
  -- the passes leave every buffer placed; the capacity pass posts its constraints
  have hs₃ : s₃.Sound := (keeps_propagateWrites t _ _ _ hpw).sound
    ((keeps_createVariables t _ _ _ _ _ hcv).sound (k₁.steady.keeps.sound hs))
  obtain ⟨k₄, hcap⟩ := runs_postCapacity hpc hs₃
  have k₅ := steady_objective tl t _ _ _ hobj
  obtain ⟨k₇, hplace, -⟩ := runs_extract h₆
  -- the searched model: built, unclamped, the one every later step keeps
  have hb₅ : s₅.model.Built := k₅.built (k₄.built hs₃.built)
  have hmodel : s'.model = s₅.model := k₇.model.trans k₆.model
  rw [hmodel] at hu
  have hrec := Model.minimize_recorded hb₅ hu hsol
  have hg : s₃.model.Grows s₅.model := k₄.grows.trans k₅.grows
  have htiles : s₆.memo.tiles = s₃.memo.tiles := k₆.tiles.trans (k₅.tiles.trans k₄.tiles)
  rw [SolveMemo.tileNodes_congr htiles] at hplace
  intro pb hpb lvl hlvl sl hsl c hc q l hq hl
  -- the placement comes from a buffer entry of a tile
  obtain ⟨i, hi, rfl⟩ := List.getElem_of_mem hpb
  have hlen := hplace.length_eq
  have hQ := (List.forall₂_iff_get.1 hplace).2 i (hlen ▸ hi) hi
  simp only [List.get_eq_getElem] at hQ
  obtain ⟨hn, -, -, hlife, -⟩ := hQ
  obtain ⟨⟨id, info⟩, hx, hmem⟩ := List.mem_flatMap.1 (List.getElem_mem (hlen ▸ hi))
  obtain ⟨b, hb, hpair⟩ := List.mem_map.1 hmem
  rw [← hpair] at hn hlife
  rw [hn] at hlvl hq ⊢
  rw [hlife]
  have hinfo := SolveMemo.mem_tileNodes.1 hx
  -- the tile's constraint bounds the bytes the chosen placements take
  have hposted := (hcap id info hinfo lvl hlvl q l hq hl b hb sl hsl c hc).grows k₅.grows
  have hone : s₅.model.OneHot sol.value := hrec.oneHot
  have hheld : ∀ b' ∈ info.liveWith (l.filterMap s₃.memo.tile?) b,
      b'.heldAt sol.value sl = b'.chosenBytes sol sl := by
    intro b' hb'
    have hp := hs₃.placed_liveWith hinfo l hb'
    exact TileBuffer.heldAt_eq_chosenBytes hp.nodup (hp.oneHot hg hb₅.wellFormed hone) (hposted.1 b' hb')
  have hnd : (id :: l).Nodup := List.nodup_cons.2 ⟨hl.not_mem hq, hl.nodup⟩
  calc ((st.placements.filter fun p => (p.node == id || l.contains p.node) && p.level == sl &&
          p.lifetime.overlaps b.lifetime).map (·.sizeBytes)).sum
      = ((s₃.memo.tileNodes.flatMap fun (id, info) => info.buffers.map (id, ·)).map fun x =>
          if (x.1 == id || l.contains x.1) && x.2.lifetime.overlaps b.lifetime then x.2.chosenBytes sol sl
          else 0).sum := sum_placements_eq (fun n => n == id || l.contains n) b.lifetime hplace
    _ = ((info.liveWith (l.filterMap s₃.memo.tile?) b).map (·.chosenBytes sol sl)).sum :=
      s₃.memo.sum_pairs_eq hinfo hnd b _
    _ = ((info.liveWith (l.filterMap s₃.memo.tile?) b).map (·.heldAt sol.value sl)).sum :=
      (List.map_congr_left hheld).symm ▸ rfl
    _ ≤ Int.ofNat (min c I64.max.toNat) := hposted.le hrec.assigns
    _ = min (c : Int) I64.max := by
      simp only [Int.ofNat_eq_natCast, I64.max]
      omega

end Tiler

section Solve

variable {tl : Tiler} {t : TileTree} {log : Array LogRecord} {st : SolvedTree}

theorem runs_of_reported {x : Solving SolvedTree} {s : SolveState}
    (h : (match x.run.run s with | (r, s') => (s'.log, r)) = (log, .ok st)) : Runs x s st (x.run.run s).2 := by
  rcases hr : x.run.run s with ⟨r, s'⟩
  rw [hr] at h
  obtain ⟨-, rfl⟩ := Prod.mk.inj h
  exact hr

theorem runs_of_solve (hsolve : tl.solve t = (log, .ok st)) : ∃ k, t.kind t.root = .ok k ∧
    (∀ leaf, k = .leaf leaf → Runs (tl.solveSingle t leaf) (SolveState.new {} t.len) st
      ((tl.solveSingle t leaf).run.run (SolveState.new {} t.len)).2) ∧
    ((∀ leaf, k ≠ .leaf leaf) → Runs (tl.solveTiled t) (SolveState.new {} t.len) st
      ((tl.solveTiled t).run.run (SolveState.new {} t.len)).2) := by
  unfold Tiler.solve at hsolve
  split at hsolve
  · simp at hsolve
  · cases hk : t.kind t.root with
    | error e =>
      -- a root with no kind is a fault, never a result
      simp only [hk, tree] at hsolve
      change ((SolveState.new {} t.len).log, (Except.error (Error.fault e) : Except Error SolvedTree)) = _ at hsolve
      simp at hsolve
    | ok k =>
      refine ⟨k, rfl, ?_⟩
      simp only [hk, tree, pure_bind] at hsolve
      cases k with
      | leaf leaf =>
        refine ⟨fun leaf' hl => ?_, fun hnl => absurd rfl (hnl leaf)⟩
        cases hl
        exact runs_of_reported hsolve
      | tile n => exact ⟨fun _ h => (nomatch h), fun _ => runs_of_reported hsolve⟩
      | scope => exact ⟨fun _ h => (nomatch h), fun _ => runs_of_reported hsolve⟩

theorem runs_solve_tiled (hroot : ∀ leaf, t.kind t.root ≠ .ok (.leaf leaf)) (hsolve : tl.solve t = (log, .ok st)) :
    Runs (tl.solveTiled t) (SolveState.new {} t.len) st ((tl.solveTiled t).run.run (SolveState.new {} t.len)).2 := by
  obtain ⟨k, hk, -, htiled⟩ := runs_of_solve hsolve
  exact htiled fun leaf hl => hroot leaf (hl ▸ hk)

theorem runs_solve_single {leaf : OpLeaf} (hroot : t.kind t.root = .ok (.leaf leaf))
    (hsolve : tl.solve t = (log, .ok st)) :
    Runs (tl.solveSingle t leaf) (SolveState.new {} t.len) st
      ((tl.solveSingle t leaf).run.run (SolveState.new {} t.len)).2 := by
  obtain ⟨k, hk, hsingle, -⟩ := runs_of_solve hsolve
  rw [hroot] at hk
  exact hsingle leaf (Except.ok.inj hk).symm

end Solve

/-- Capacity holds in every solved tree: at every tile and every bounded memory level below the
tile's, the placements reported at the tile and the tiles above it, live together with a buffer
there, take no more bytes than the level holds, capped at the word range. The search's model is
assumed to have no clamped interval. -/
theorem solve_respects_capacity {tl : Tiler} {t : TileTree} {tile : TileNode} {log : Array LogRecord}
    {st : SolvedTree} (hroot : t.kind t.root = .ok (.tile tile)) (hsolve : tl.solve t = (log, .ok st))
    (hu : ((tl.solveTiled t).run.run (SolveState.new {} t.len)).2.model.Unclamped) :
    ∀ pb ∈ st.placements, ∀ lvl, t.level pb.node = .ok lvl → ∀ sl < lvl, ∀ c, tl.target.capacity sl = some c →
      ∀ q l, t.parent pb.node = .ok q → t.UpChain q l →
        ((st.placements.filter fun p => (p.node == pb.node || l.contains p.node) && p.level == sl &&
          p.lifetime.overlaps pb.lifetime).map (·.sizeBytes)).sum ≤ min (c : Int) I64.max :=
  Tiler.solveTiled_respects_capacity (runs_solve_tiled (fun _ h => nomatch hroot.symm.trans h) hsolve)
    (SolveState.sound_new _) hu

def smallTarget : Target := { levels := [⟨"L1", some 64, 1⟩, ⟨"DDR", none, 1⟩] }

/-! A producer fused into its consumer. -/

def chainPair : Dataflow :=
  let (g, a) := Dataflow.addElementwise { name := "pair" } "op0" [2] []
  (g.addElementwise "op1" [2] [some a]).1

def fusedTiler : Tiler :=
  { dataflow := chainPair, target := { levels := [⟨"L0", some 16, 1⟩, ⟨"L1", some 32, 2⟩, ⟨"DDR", none, 4⟩] } }

/-- The consumer's tile at level two once the producer's tile was merged into it: below it a tile
of each operation at level one, each over its operation. -/
def fusedTree : TileTree :=
  let t := TileTree.new (.tile ⟨2, 1, .identity 1, [2]⟩)
  let (t, a) := t.addChild 0 (.tile ⟨1, 0, .identity 1, [2]⟩)
  let (t, b) := t.addChild 0 (.tile ⟨1, 1, .identity 1, [2]⟩)
  let (t, _) := t.addChild b (.leaf ⟨1, .identity 1, [2]⟩)
  (t.addChild a (.leaf ⟨0, .identity 1, [2]⟩)).1

/-- The answer: the fused tile runs twice over tiles of one element, and every buffer is made in
the first scratchpad inside the loop. The value passed from producer to consumer is one buffer of
the fused tile, live from the producer's step to the consumer's; at the consumer's tile it fills
the scratchpad with the consumer's output and the two buffers of that tile. -/
def fusedSolved : SolvedTree :=
  ⟨fusedTree, [⟨0, [2], [2]⟩, ⟨1, [1], [1]⟩, ⟨4, [1], [1]⟩, ⟨2, [1], [1]⟩, ⟨3, [1], [1]⟩],
    [⟨0, ⟨0, 0⟩, [⟨0, 0⟩, ⟨1, 0⟩], 0, 1, 4, 8, ⟨0, 3⟩, ⟨false, true, true⟩⟩,
      ⟨0, ⟨1, 1⟩, [⟨1, 1⟩], 0, 1, 4, 8, ⟨2, 3⟩, ⟨false, false, true⟩⟩,
      ⟨1, ⟨0, 0⟩, [⟨0, 0⟩], 0, 1, 4, 8, ⟨0, 1⟩, ⟨false, false, false⟩⟩,
      ⟨2, ⟨1, 0⟩, [⟨1, 0⟩], 0, 1, 4, 8, ⟨2, 3⟩, ⟨false, false, false⟩⟩,
      ⟨2, ⟨1, 1⟩, [⟨1, 1⟩], 0, 1, 4, 8, ⟨2, 3⟩, ⟨false, false, false⟩⟩], 40, .optimal, 12, 13, 32⟩

deriving instance DecidableEq for SolvedTree

theorem fusedTree_solve : fusedTiler.solve fusedTree = ((fusedTiler.solve fusedTree).1, .ok fusedSolved) := by
  refine Prod.ext rfl (toOption_eq_some.1 ?_)
  -- the search with each group sorted by insertion, which the kernel evaluates
  simp only [Tiler.solve, Tiler.solveTiled, Tiler.minimize, Model.minimizeLogged, Model.explore,
    Model.search_eq_searchByInsertion]
  decide +kernel

theorem fusedTree_root_tile : ∀ leaf, fusedTree.kind fusedTree.root ≠ .ok (.leaf leaf) :=
  fun _ h => nomatch (show fusedTree.kind fusedTree.root = .ok (.tile ⟨2, 1, .identity 1, [2]⟩) by decide).symm.trans h

theorem fusedTree_model :
    ((fusedTiler.solveTiled fusedTree).run.run (SolveState.new {} fusedTree.len)).2.model =
      ((fusedTiler.buildModel fusedTree).run.run (SolveState.new {} fusedTree.len)).2.model :=
  Tiler.solveTiled_model (runs_solve_tiled fusedTree_root_tile fusedTree_solve)

theorem fusedTree_unclamped :
    ((fusedTiler.solveTiled fusedTree).run.run (SolveState.new {} fusedTree.len)).2.model.Unclamped := by
  rw [fusedTree_model]
  decide +kernel

theorem fusedTree_respects_capacity :
    fusedTree.kind fusedTree.root = .ok (.tile ⟨2, 1, .identity 1, [2]⟩) ∧
    fusedTiler.solve fusedTree = ((fusedTiler.solve fusedTree).1, .ok fusedSolved) ∧
    ((fusedTiler.solveTiled fusedTree).run.run (SolveState.new {} fusedTree.len)).2.model.Unclamped ∧
    ∀ pb ∈ fusedSolved.placements, ∀ lvl, fusedTree.level pb.node = .ok lvl → ∀ sl < lvl, ∀ c,
      fusedTiler.target.capacity sl = some c → ∀ q l, fusedTree.parent pb.node = .ok q → fusedTree.UpChain q l →
        ((fusedSolved.placements.filter fun p => (p.node == pb.node || l.contains p.node) &&
          p.level == sl && p.lifetime.overlaps pb.lifetime).map (·.sizeBytes)).sum ≤ min (c : Int) I64.max := by
  have hroot : fusedTree.kind fusedTree.root = .ok (.tile ⟨2, 1, .identity 1, [2]⟩) := by decide
  exact ⟨hroot, fusedTree_solve, fusedTree_unclamped,
    solve_respects_capacity hroot fusedTree_solve fusedTree_unclamped⟩

/-! Element sizes and vector lanes. An elementwise kernel's innermost primitive tile is the number
of lanes its write fills in one vector, so a wider write element means fewer lanes and finer legal
tiles: a larger buffer can make a tree easier to solve. -/

end TileSched
