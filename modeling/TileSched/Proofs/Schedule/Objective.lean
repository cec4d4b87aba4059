import TileSched.Proofs.Affine.Arithmetic
import TileSched.Proofs.Schedule.Solved
import TileSched.Proofs.Schedule.Accounted
import TileSched.Proofs.Fusion.Wellformed
/-! The objective of a solved tree and its placements. The objective weighs, for every placement
boolean, the bytes moved at the boolean's create position by its level's transfer cost. Under an
assignment that sets one boolean per buffer, a buffer's terms add up to the cost of the chosen
level times the bytes moved at the chosen position, which is what reading back reports. So the
objective is the cost-weighed sum of the reported bytes moved, and each placement's bytes moved
are its size times its trip count, as the second pass defines them. -/

namespace TileSched

open Solving

namespace TileBuffer

variable {b : TileBuffer}

theorem placeSlots_eq :
    (b.places.zipIdx.flatMap fun (row, slot) => row.zipIdx.map fun (place, sl) => (place, sl, slot)) =
      b.allPlaces.map fun x => (x.2.2, x.2.1, x.1 - b.firstPos) := by
  simp only [allPlaces, List.map_flatMap, List.map_map]
  congr 1
  funext x
  simp [Function.comp_def]

/-- The bytes `b` moves under values `val`, weighed by transfer cost: at every create position and
memory level, the boolean times the bytes moved at the position, times the level's cost. -/
def movedBytes (tgt : Target) (val : Nat → Int) (b : TileBuffer) : Int :=
  (b.allPlaces.map fun x => tgt.transferCost x.2.1 * (val x.2.2 * val (b.writes.getD (x.1 - b.firstPos) 0))).sum

theorem movedBytes_eq_chosen {tgt : Target} {sol : Solution} (hnd : b.places.flatten.Nodup)
    (hone : ∃ w ∈ b.places.flatten, ∀ e ∈ b.places.flatten, sol.value e = if e = w then 1 else 0)
    {x : Nat × Nat × Nat} (hc : b.chosen sol = some x) :
    b.movedBytes tgt sol.value = tgt.transferCost x.2.1 * sol.value (b.writes.getD (x.1 - b.firstPos) 0) := by
  obtain ⟨w, -, hval⟩ := hone
  have hx : x ∈ b.allPlaces := List.mem_of_find?_eq_some hc
  have hflat : ∀ y ∈ b.allPlaces, y.2.2 ∈ b.places.flatten := fun y hy =>
    allPlaces_map (b := b) ▸ List.mem_map_of_mem hy
  -- the chosen boolean is set, so it is the one
  have hxw : x.2.2 = w := by
    have hset := List.find?_some hc
    by_contra hne
    simp [Solution.isSet, hval _ (hflat x hx), hne] at hset
  -- key the terms by their boolean: only the set one counts
  let F : Nat × (Nat × Nat × Nat) → Int := fun z =>
    tgt.transferCost z.2.2.1 * sol.value (b.writes.getD (z.2.1 - b.firstPos) 0)
  have hkeys : ((b.allPlaces.map fun y => (y.2.2, y)).map (·.1)).Nodup := by
    rw [List.map_map]
    exact allPlaces_map (b := b) ▸ hnd
  have hterm : ∀ y ∈ b.allPlaces, tgt.transferCost y.2.1 *
      (sol.value y.2.2 * sol.value (b.writes.getD (y.1 - b.firstPos) 0)) =
        if y.2.2 = w then F (y.2.2, y) else 0 := by
    intro y hy
    rw [hval _ (hflat y hy)]
    split <;> simp [F]
  have hmem : (w, x) ∈ b.allPlaces.map fun y => (y.2.2, y) := List.mem_map.2 ⟨x, hx, by rw [hxw]⟩
  have hsum := sum_ite_fst_of_mem F hkeys hmem
  rw [List.map_map] at hsum
  rw [movedBytes, List.map_congr_left hterm]
  exact hsum

theorem Shaped.bounds_of_mem {level rank pos sl e : Nat} (hs : b.Shaped level rank)
    (hx : (pos, sl, e) ∈ b.allPlaces) : sl < level ∧ b.firstPos ≤ pos ∧ pos ≤ rank := by
  obtain ⟨slot, rfl, he⟩ := mem_allPlaces.1 hx
  have hslot : slot < b.places.length := by
    by_contra hge
    rw [List.getD_eq_default _ _ (by omega)] at he
    simp at he
  have hrow : (b.places.getD slot []).length = level :=
    hs.rows _ (List.getD_eq_getElem _ _ hslot ▸ List.getElem_mem hslot)
  have hsl := (List.getElem?_eq_some_iff.1 he).1
  have hpos := hs.positions
  omega

theorem Filled.moved {m m' : Model} {val : Nat → Int} (hf : b.Filled m) (hg : m.Grows m')
    (hval : m'.Evaluation val) {slot w sz : Nat} (hw : b.writes[slot]? = some w) (hs : b.sizes[slot]? = some sz) :
    val w = val sz * val (b.trips.getD slot 0) := by
  obtain ⟨sz', tr, hsz', htr, -, hden⟩ := hf.writes slot w hw
  rw [hs, Option.some.injEq] at hsz'
  rw [hden m' hg val hval, hsz', List.getD_eq_getElem?_getD, htr, Option.getD_some]

end TileBuffer

namespace Model

variable {m m' : Model}

/-- The terms `ts`, each value weighed by its coefficient, add up to `F val` under every
evaluation of every model grown from `m`. -/
def WeighsTo (m : Model) (ts : List (Int × Nat)) (F : (Nat → Int) → Int) : Prop :=
  ∀ m', m.Grows m' → ∀ val, m'.Evaluation val → (ts.map fun t => t.1 * val t.2).sum = F val

namespace WeighsTo

variable {ts ts' : List (Int × Nat)} {F G : (Nat → Int) → Int}

theorem grows (h : m.WeighsTo ts F) (hg : m.Grows m') : m'.WeighsTo ts F :=
  fun m'' hg' val hval => h m'' (hg.trans hg') val hval

theorem congr (h : m.WeighsTo ts F) (hF : ∀ val, F val = G val) : m.WeighsTo ts G :=
  fun m' hg val hval => (h m' hg val hval).trans (hF val)

theorem append (h : m.WeighsTo ts F) (h' : m.WeighsTo ts' G) :
    m.WeighsTo (ts ++ ts') fun val => F val + G val := fun m' hg val hval => by
  rw [List.map_append, List.sum_append, h m' hg val hval, h' m' hg val hval]

theorem of_forall₂ {γ : Type} {c : γ → Int} {H : γ → (Nat → Int) → Int} :
    ∀ {xs : List γ} {ts : List (Int × Nat)}, List.Forall₂ (fun x t => t.1 = c x ∧ m.Denotes t.2 (H x)) xs ts →
      m.WeighsTo ts fun val => (xs.map fun x => c x * H x val).sum
  | [], [], .nil => fun _ _ _ _ => rfl
  | _ :: _, _ :: _, .cons ⟨hc, hd⟩ tl => fun m' hg val hval => by
    simp only [List.map_cons, List.sum_cons]
    rw [hc, hd m' hg val hval, of_forall₂ tl m' hg val hval]

theorem linear (hcn : m.ConstantsNamed) (h : m.WeighsTo ts F) (c : Int) :
    (m.linear ts c).1.Denotes (m.linear ts c).2 fun val => c + F val :=
  (Denotes.linear hcn ts c).congr fun m' hg val hval => by
    rw [h m' ((Grows.linear m ts c).trans hg) val hval]

end WeighsTo

end Model

theorem runs_movedTerms (tgt : Target) :
    ∀ {bufs : List TileBuffer} {s s' : SolveState} {ts : List (Int × Nat)},
      Runs (Tiler.movedTerms tgt bufs) s ts s' → Steady s s' ∧
        (s.model.Built → (∀ b ∈ bufs, b.Placed s.model ∧ b.Filled s.model) →
          s'.model.WeighsTo ts fun val => (bufs.map (·.movedBytes tgt val)).sum)
  | [], s, s', ts, h => by
    unfold Tiler.movedTerms at h
    rw [List.flatMapM_nil] at h
    obtain ⟨rfl, rfl⟩ := runs_pure.1 h
    exact ⟨Steady.refl _, fun _ _ _ _ _ _ => rfl⟩
  | b :: rest, s, s', ts, h => by
    unfold Tiler.movedTerms at h
    obtain ⟨ys, t, ys', h₁, h₂, rfl⟩ := runs_flatMapM_cons.1 h
    rw [TileBuffer.placeSlots_eq] at h₁
    -- one term per boolean: its level's cost, and the boolean times the bytes moved at its slot
    have key := Moves.mapM_forall₂ (R := Steady)
      (I := fun t => t.model.Built ∧ b.Placed t.model ∧ b.Filled t.model)
      (Q := fun x y t => y.1 = tgt.transferCost x.2.1 ∧
        t.model.Denotes y.2 fun val => val x.1 * val (b.writes.getD x.2.2 0)) ?hI ?hQ ?moves ?step h₁
    case hI => exact fun t t' hI hst => ⟨hst.built hI.1, hI.2.1.grows hst.grows, hI.2.2.grows hst.grows⟩
    case hQ => exact fun x y t t' hQ hst => ⟨hQ.1, hQ.2.grows hst.grows⟩
    case moves =>
      exact fun _ _ => Moves.bind (Moves.tree _) fun _ => Moves.bind (steady_mul _ _) fun _ => Moves.pure _
    case step =>
      rintro ⟨place, sl, slot⟩ hx t y t' ⟨hbuilt, hplaced, hfilled⟩ hrun
      obtain ⟨w, t₁, hitem, hrun₁⟩ := runs_bind.1 hrun
      obtain ⟨hw, rfl⟩ := runs_tree.1 hitem
      obtain ⟨moved, t₂, hmul, hrun₂⟩ := runs_bind.1 hrun₁
      obtain ⟨rfl, rfl⟩ := runs_pure.1 hrun₂
      obtain ⟨m', hm', rfl⟩ := runs_buildChecked.1 hmul
      -- the boolean is a variable of the buffer's group, the bytes moved a word constant
      obtain ⟨z, hz, hxz⟩ := List.mem_map.1 hx
      have hplace : z.2.2 = place := congrArg (·.1) hxz
      have hmem : place ∈ b.places.flatten := hplace ▸ TileBuffer.allPlaces_map (b := b) ▸ List.mem_map_of_mem hz
      obtain ⟨v, hv⟩ := hplaced.var_of_mem hmem
      have hwi := itemAt_eq_ok.1 hw
      obtain ⟨-, -, -, -, hword, -⟩ := hfilled.writes slot w hwi
      have hget : b.writes.getD slot 0 = w := by
        rw [List.getD_eq_getElem?_getD, hwi, Option.getD_some]
      refine ⟨rfl, ?_⟩
      rw [hget]
      exact Model.Denotes.mul_var hbuilt.constantsNamed hv hword hm'
    obtain ⟨hst, hterms⟩ := key
    obtain ⟨hst', hrest⟩ := runs_movedTerms tgt h₂
    refine ⟨hst.trans hst', fun hbuilt hbufs => ?_⟩
    have hb := hbufs b List.mem_cons_self
    have hsum : t.model.WeighsTo ys (b.movedBytes tgt) := by
      refine (Model.WeighsTo.of_forall₂ (hterms ⟨hbuilt, hb⟩)).congr fun val => ?_
      rw [TileBuffer.movedBytes, List.map_map]
      rfl
    have hsum' := hrest (hst.built hbuilt) fun b' hb' =>
      have hb'' := hbufs b' (List.mem_cons_of_mem _ hb')
      ⟨hb''.1.grows hst.grows, hb''.2.grows hst.grows⟩
    simpa using (hsum.grows hst'.grows).append hsum'

theorem SolveState.Accounted.entry {t : TileTree} {tgt : Target} {s : SolveState} (ha : s.Accounted t tgt)
    (hs : s.Sound) {x : Nat × TileBuffer}
    (hx : x ∈ s.memo.tileNodes.flatMap fun (id, info) => info.buffers.map (id, ·)) :
    x.2.Placed s.model ∧ ∃ tile, t.kind x.1 = .ok (.tile tile) ∧ x.2.Shaped tile.level tile.bounds.length ∧
      (x.2.firstPos = 0 → t.UnderScopes x.1 ∧ tile.level = tgt.topLevel) ∧ x.2.Filled s.model := by
  obtain ⟨⟨id, info⟩, hi, hmem⟩ := List.mem_flatMap.1 hx
  obtain ⟨b, hb, rfl⟩ := List.mem_map.1 hmem
  have hinfo := SolveMemo.mem_tileNodes.1 hi
  obtain ⟨tile, hkind, hacc⟩ := ha id info hinfo
  exact ⟨hs.placed id info hinfo b hb, tile, hkind, hacc b hb⟩

theorem runs_objective {tl : Tiler} {t : TileTree} {s s' : SolveState} {obj : Nat}
    (h : Runs (tl.objective t) s obj s') (hs : s.Sound) (ha : s.Accounted t tl.target) :
    Steady s s' ∧ s'.model.Denotes obj fun val =>
      ((s.memo.tileNodes.flatMap fun (_, info) => info.buffers).map (·.movedBytes tl.target val)).sum := by
  unfold Tiler.objective at h
  obtain ⟨st, s₀, hget, h₀⟩ := runs_bind.1 h
  obtain ⟨hst, hs₀⟩ := runs_get.1 hget
  subst st s₀
  obtain ⟨terms, s₁, hterms, h₁⟩ := runs_bind.1 h₀
  obtain ⟨_, s₂, hrec, h₂⟩ := runs_bind.1 h₁
  have k₂ := reads_record _ _ _ _ _ _ hrec
  have k₃ := steady_linear _ _ _ _ _ h₂
  obtain ⟨hobj, rfl⟩ := runs_build.1 h₂
  obtain ⟨k₁, hweigh⟩ := runs_movedTerms tl.target hterms
  -- every buffer of the memo is an entry's, so placed and filled
  have hbufs : ∀ b ∈ (s.memo.tileNodes.flatMap fun (_, info) => info.buffers),
      b.Placed s.model ∧ b.Filled s.model := by
    intro b hb
    obtain ⟨⟨id, info⟩, hx, hb⟩ := List.mem_flatMap.1 hb
    obtain ⟨hp, -, -, -, -, hf⟩ := ha.entry hs (x := (id, b)) (List.mem_flatMap.2 ⟨_, hx, List.mem_map_of_mem hb⟩)
    exact ⟨hp, hf⟩
  refine ⟨k₁.trans (k₂.steady.trans k₃), ?_⟩
  rw [← hobj, k₂.model]
  refine ((hweigh hs.built hbufs).linear (k₁.built hs.built).constantsNamed 0).congr fun _ _ _ _ => ?_
  rw [zero_add]

/-- What a solved tree reports of buffer entry `x` of tile node `x.1`, under values `val` of the
searched model: one placement with the entry's identities, at a memory level below the tile's,
created at a position from the entry's first up to the tile's rank (the first outside all loops,
only at a tile with no tile above it at the target's top level), and moving its size times the
entry's trip count at that position. -/
structure PlacementAccounts (t : TileTree) (tgt : Target) (val : Nat → Int) (x : Nat × TileBuffer)
    (p : BufferPlacement) : Prop where
  node : p.node = x.1
  buffer : p.buffer = x.2.id
  aliases : p.aliases = x.2.aliases
  tile : ∃ tile, t.kind x.1 = .ok (.tile tile) ∧ t.level x.1 = .ok tile.level ∧ p.level < tile.level ∧
    x.2.firstPos ≤ p.createLoop ∧ p.createLoop ≤ tile.bounds.length ∧
    (x.2.firstPos = 0 → t.UnderScopes x.1 ∧ tile.level = tgt.topLevel)
  moved : p.writeBytes = p.sizeBytes * val (x.2.trips.getD (p.createLoop - x.2.firstPos) 0)

namespace ReadBack

variable {sol : Solution} {x : Nat × TileBuffer} {p : BufferPlacement}

theorem accounts {t : TileTree} {tgt : Target} {tile : TileNode} {m m' : Model} (hr : ReadBack sol x p)
    (hkind : t.kind x.1 = .ok (.tile tile)) (hshape : x.2.Shaped tile.level tile.bounds.length)
    (hfirst : x.2.firstPos = 0 → t.UnderScopes x.1 ∧ tile.level = tgt.topLevel) (hfill : x.2.Filled m)
    (hg : m.Grows m') (hval : m'.Evaluation sol.value) : PlacementAccounts t tgt sol.value x p := by
  obtain ⟨e, hc⟩ := hr.chosen
  obtain ⟨sz, hsz, hbytes⟩ := hr.size
  obtain ⟨w, hw, hmoved⟩ := hr.moved
  obtain ⟨hlt, hge, hle⟩ := hshape.bounds_of_mem (List.mem_of_find?_eq_some hc)
  refine ⟨hr.node, hr.buffer, hr.aliases, ⟨tile, hkind, TileTree.level_of_tile hkind, hlt, hge, hle, hfirst⟩, ?_⟩
  rw [hmoved, hbytes]
  exact hfill.moved hg hval hw hsz

theorem movedBytes_eq {tgt : Target} (hr : ReadBack sol x p) (hnd : x.2.places.flatten.Nodup)
    (hone : ∃ w ∈ x.2.places.flatten, ∀ e ∈ x.2.places.flatten, sol.value e = if e = w then 1 else 0) :
    x.2.movedBytes tgt sol.value = tgt.transferCost p.level * p.writeBytes := by
  obtain ⟨e, hc⟩ := hr.chosen
  obtain ⟨w, hw, hmoved⟩ := hr.moved
  rw [TileBuffer.movedBytes_eq_chosen hnd hone hc, hmoved]
  dsimp only
  rw [List.getD_eq_getElem?_getD, hw, Option.getD_some]

end ReadBack

theorem SolveMemo.sum_buffers (mm : SolveMemo) (f : TileBuffer → Int) :
    ((mm.tileNodes.flatMap fun (_, info) => info.buffers).map f).sum =
      ((mm.tileNodes.flatMap fun (id, info) => info.buffers.map (id, ·)).map (f ·.2)).sum := by
  rw [sum_map_flatMap, sum_map_flatMap]
  simp [Function.comp_def]

namespace Tiler

theorem solveTiled_accounts {tl : Tiler} {t : TileTree} {s s' : SolveState} {st : SolvedTree}
    (h : Runs (tl.solveTiled t) s st s') (hs : s.Sound) (ha : s.Accounted t tl.target)
    (hu : s'.model.Unclamped) :
    ∃ val, s'.model.Assigns val ∧
      List.Forall₂ (PlacementAccounts t tl.target val)
        (s'.memo.tileNodes.flatMap fun (id, info) => info.buffers.map (id, ·)) st.placements ∧
      st.objective = (st.placements.map fun p => tl.target.transferCost p.level * p.writeBytes).sum := by
  obtain ⟨s₁, s₂, s₃, s₄, s₅, s₆, r, obj, sol, k₁, hcv, hpw, hpc, hobj, hsol, k₆, h₆⟩ := solveTiled_cases h
  -- the passes leave every buffer placed, shaped and filled; the capacity pass only grows the model
  have k₃ : Accounts t tl.target s s₃ := (k₁.steady.accounts.trans
    (accounts_createVariables _ _ _ _ _ _ hcv)).trans (accounts_propagateWrites t _ _ _ _ hpw)
  obtain ⟨k₄, -⟩ := runs_postCapacity hpc (k₃.keeps.sound hs)
  have hs₄ := k₄.keeps.sound (k₃.keeps.sound hs)
  have ha₄ := (k₃.accounted hs ha).of_grows k₄.grows k₄.tiles
  obtain ⟨k₅, hden⟩ := runs_objective hobj hs₄ ha₄
  obtain ⟨k₇, hplace, hobjective⟩ := runs_extract h₆
  -- the searched model is the one every later step keeps; the solution assigns it
  have hb₅ : s₅.model.Built := k₅.built hs₄.built
  rw [k₇.model.trans k₆.model] at hu ⊢
  rw [SolveMemo.tileNodes_congr (k₇.tiles.trans (k₆.tiles.trans k₅.tiles))]
  rw [SolveMemo.tileNodes_congr (k₆.tiles.trans k₅.tiles)] at hplace
  obtain ⟨-, hassigns, hone, -, hval⟩ := Model.minimize_solution_sound hb₅ hu hsol
  have hboth := (List.forall₂_and_left _ _).2 ⟨fun x hx => ha₄.entry hs₄ hx, hplace⟩
  refine ⟨sol.value, hassigns, hboth.imp fun x p hxp => ?_, ?_⟩
  · obtain ⟨⟨-, tile, hkind, hshape, hfirst, hfill⟩, hr⟩ := hxp
    exact hr.accounts hkind hshape hfirst hfill k₅.grows hassigns.toEvaluation
  · -- entry by entry, the weighed terms are the cost of the read-back placement
    have hterms : List.Forall₂ (fun a c => a = c)
        ((s₄.memo.tileNodes.flatMap fun (id, info) => info.buffers.map (id, ·)).map
          (·.2.movedBytes tl.target sol.value))
        (st.placements.map fun p => tl.target.transferCost p.level * p.writeBytes) := by
      refine List.forall₂_map_left_iff.2 (List.forall₂_map_right_iff.2 (hboth.imp fun x p hxp => ?_))
      obtain ⟨⟨hp, -⟩, hr⟩ := hxp
      exact hr.movedBytes_eq hp.nodup (hp.oneHot k₅.grows hb₅.wellFormed hone)
    rw [List.forall₂_eq_eq_eq] at hterms
    rw [hobjective, hval, hden s₅.model (Model.Grows.refl _) _ hassigns.toEvaluation]
    dsimp only
    rw [SolveMemo.sum_buffers, hterms]

end Tiler

theorem Model.unclamped_constant (c : Int) : (({} : Model).constant c).1.Unclamped := by
  intro i hi
  have hsize : (({} : Model).constant c).1.nodes.size = 1 := rfl
  have hi0 : i = 0 := by omega
  subst hi0
  trivial

theorem Tiler.solveSingle_objective {tl : Tiler} {t : TileTree} {leaf : OpLeaf} {s s' : SolveState}
    {st : SolvedTree} (h : Runs (tl.solveSingle t leaf) s st s') (hs : s.model = {}) :
    st.objective = (st.placements.map (·.writeBytes)).sum ∧ ∀ p ∈ st.placements, p.writeBytes = p.sizeBytes := by
  unfold solveSingle at h
  obtain ⟨op, s₁, hop, h₁⟩ := runs_bind.1 h
  obtain ⟨-, hs₁⟩ := runs_lift.1 hop
  subst s₁
  obtain ⟨_, s₂, hnb, h₂⟩ := runs_bind.1 h₁
  obtain ⟨total, s₃, htot, h₃⟩ := runs_bind.1 h₂
  obtain ⟨htotal, hs₃⟩ := runs_tree.1 htot
  subst s₃
  obtain ⟨obj, s₄, hconst, h₄⟩ := runs_bind.1 h₃
  obtain ⟨sol, s₅, hmin, h₅⟩ := runs_bind.1 h₄
  obtain ⟨bytes, s₆, hbytes, h₆⟩ := runs_bind.1 h₅
  obtain ⟨s₇, s₈, hget, h₇⟩ := runs_bind.1 h₆
  obtain ⟨rfl, rfl⟩ := runs_get.1 hget
  obtain ⟨rfl, rfl⟩ := runs_pure.1 h₇
  -- the searched model is the empty one with the total as its constant
  have hm₂ : s₂.model = {} := ((reads_noteBackend tl _ _ _ hnb).model).trans hs
  obtain ⟨hobj, rfl⟩ := runs_build.1 hconst
  obtain ⟨-, hsol⟩ := runs_minimize hmin
  dsimp only at hobj hsol
  rw [hm₂] at hobj hsol
  have hb : (({} : Model).constant total).1.Built := .constant total .empty
  obtain ⟨-, hassigns, -, -, hval⟩ := Model.minimize_solution_sound hb (Model.unclamped_constant total) hsol
  have hobjval : sol.value obj = total := by
    rw [← hobj]
    exact hassigns.derived _ _ (Model.getElem?_constant (Model.Built.empty.constantsNamed) total)
  -- the bytes read after the search are the summands of the total
  have key := Moves.mapM_forall₂ (R := Reads) (I := fun _ => True)
    (Q := fun i b _ => op.bufferBytes i = .ok b) (fun _ _ _ _ => trivial) (fun _ _ _ _ hq _ => hq)
    (fun _ _ => Moves.tree _) (fun _ _ _ _ _ _ hrun => (runs_tree.1 hrun).1) hbytes
  let size : Nat → Int := fun i => ((op.bufferBytes i).toOption).getD 0
  have hsizes : (List.range op.numBuffers).map size = bytes := by
    rw [← List.forall₂_eq_eq_eq, List.forall₂_map_left_iff]
    exact (key.2 trivial).imp fun i b hb => by simp [size, hb, Except.toOption]
  have hsum := foldlM_ok_sum size htotal fun acc i acc' _ h => by
    obtain ⟨b, hb, hadd⟩ := bind_eq_ok.1 h
    rw [I64.add_eq_ok hadd]
    simp [size, hb, Except.toOption]
  refine ⟨?_, fun p hp => ?_⟩
  · simp only [List.map_map, Function.comp_def]
    rw [hval, hobjval, hsum, hsizes, zero_add]
    exact congrArg List.sum (List.zipIdx_map_fst 0 bytes).symm
  · obtain ⟨⟨b, i⟩, -, rfl⟩ := List.mem_map.1 hp
    rfl

/-- Objective accounting of every solved tree. For a tree not rooted at an operation whose searched
model has no clamped interval, the solution's values assign that model, every buffer entry of
every tile gets one placement, in order, that accounts for it, and the objective is the sum over
the placements of the level's transfer cost times the bytes moved. For a bare operation the
objective is the sum of the bytes moved, each the buffer's whole size. -/
theorem solve_objective_accounts {tl : Tiler} {t : TileTree} {log : Array LogRecord} {st : SolvedTree}
    (hsolve : tl.solve t = (log, .ok st)) :
    ((∀ leaf, t.kind t.root ≠ .ok (.leaf leaf)) →
      ((tl.solveTiled t).run.run (SolveState.new {} t.len)).2.model.Unclamped →
      ∃ val, ((tl.solveTiled t).run.run (SolveState.new {} t.len)).2.model.Assigns val ∧
        List.Forall₂ (PlacementAccounts t tl.target val)
          (((tl.solveTiled t).run.run (SolveState.new {} t.len)).2.memo.tileNodes.flatMap
            fun (id, info) => info.buffers.map (id, ·)) st.placements ∧
        st.objective = (st.placements.map fun p => tl.target.transferCost p.level * p.writeBytes).sum) ∧
    (∀ leaf, t.kind t.root = .ok (.leaf leaf) →
      st.objective = (st.placements.map (·.writeBytes)).sum ∧ ∀ p ∈ st.placements, p.writeBytes = p.sizeBytes) :=
  ⟨fun hroot hu => Tiler.solveTiled_accounts (runs_solve_tiled hroot hsolve) (SolveState.sound_new _)
      (SolveState.accounted_new _) hu,
    fun _ hroot => Tiler.solveSingle_objective (runs_solve_single hroot hsolve) rfl⟩

def wideOp : Dataflow := (Dataflow.addElementwise {} "op0" [64] []).1

def scratchTarget (c : Int) : Target := { levels := [⟨"L1", some 32768, c⟩, ⟨"DDR", none, 1⟩] }

def wideTiler (c : Int) : Tiler := { dataflow := wideOp, target := scratchTarget c }

def wideTile : TileTree :=
  ((TileTree.new (.tile ⟨1, 0, .identity 1, [64]⟩)).addChild 0 (.leaf ⟨0, .identity 1, [64]⟩)).1

/-- The model the solve of the wide tile builds at scratchpad cost `c`: two tile variables, one
placement boolean, and the objective weighing the bytes moved by `c`. -/
def wideModel (c : Int) : Model :=
  ⟨#[.var 0, .var 1, .product [1, 0], .linear [(8, 2)] 0, .const 64, .linear [(8, 1)] 0, .linear [(4, 5)] 0,
      .product [0, 5], .var 2, .linear [(4, 5)] 0, .const 1, .product [9, 0], .product [8, 9], .const 32768,
      .product [8, 11], .linear [(c, 14)] 0],
    #[⟨"tv_n0_0", 0, [1, 2, 4, 8, 16, 32, 64], false, none⟩, ⟨"tv_n1_0", 1, [1, 2, 4], false, none⟩,
      ⟨"place_n0_op0_0_1_0", 8, [0, 1], true, some 0⟩],
    #[.equal 3 4, .equal 7 4, .lessEqual 12 13], #[[2]], [(32768, 13), (1, 10), (64, 4)]⟩

/-- The answer for the wide tile: tiles of eight, and the buffer's 32 bytes in the scratchpad,
created inside the tile's loop and moved eight times; with the objective and nodes searched. -/
def wideTileSolved (objective : Int) (nodes : Nat) : SolvedTree :=
  ⟨wideTile, [⟨0, [8], [64]⟩, ⟨1, [1], [8]⟩],
    [⟨0, ⟨0, 0⟩, [⟨0, 0⟩], 0, 1, 32, 256, ⟨0, 1⟩, ⟨false, false, true⟩⟩], objective, .optimal, 3, 4, nodes⟩

theorem fusedTree_objective_accounts :
    fusedTiler.solve fusedTree = ((fusedTiler.solve fusedTree).1, .ok fusedSolved) ∧
    (∀ leaf, fusedTree.kind fusedTree.root ≠ .ok (.leaf leaf)) ∧
    ((fusedTiler.solveTiled fusedTree).run.run (SolveState.new {} fusedTree.len)).2.model.Unclamped ∧
    ∃ val, ((fusedTiler.solveTiled fusedTree).run.run (SolveState.new {} fusedTree.len)).2.model.Assigns val ∧
      List.Forall₂ (PlacementAccounts fusedTree fusedTiler.target val)
        (((fusedTiler.solveTiled fusedTree).run.run (SolveState.new {} fusedTree.len)).2.memo.tileNodes.flatMap
          fun (id, info) => info.buffers.map (id, ·)) fusedSolved.placements ∧
      fusedSolved.objective = (fusedSolved.placements.map fun p =>
        fusedTiler.target.transferCost p.level * p.writeBytes).sum :=
  ⟨fusedTree_solve, fusedTree_root_tile, fusedTree_unclamped,
    (solve_objective_accounts fusedTree_solve).1 fusedTree_root_tile fusedTree_unclamped⟩

/-- At a scratchpad cost of 2^60 the bytes moved weigh 2^68, past the word range: the searched
model clamps the objective's interval, and the search answers with the largest word. -/
theorem wideTile_objective_saturates :
    (wideTiler (2 ^ 60)).solve wideTile =
      (((wideTiler (2 ^ 60)).solve wideTile).1, .ok (wideTileSolved I64.max 12)) ∧
    ¬(((wideTiler (2 ^ 60)).solveTiled wideTile).run.run (SolveState.new {} wideTile.len)).2.model.Unclamped ∧
    ((wideTileSolved I64.max 12).placements.map fun p =>
      (wideTiler (2 ^ 60)).target.transferCost p.level * p.writeBytes).sum = 2 ^ 68 ∧
    (wideTileSolved I64.max 12).objective ≠ 2 ^ 68 := by
  have hsolve : (wideTiler (2 ^ 60)).solve wideTile =
      (((wideTiler (2 ^ 60)).solve wideTile).1, .ok (wideTileSolved I64.max 12)) :=
    Prod.ext rfl (by cbv)
  have hmodel : (((wideTiler (2 ^ 60)).solveTiled wideTile).run.run (SolveState.new {} wideTile.len)).2.model =
      wideModel (2 ^ 60) := by
    clear hsolve
    cbv
  refine ⟨hsolve, ?_, by decide, by decide⟩
  rw [hmodel]
  decide

end TileSched
