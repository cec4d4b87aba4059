import TileSched.Proofs.Schedule.Placement
/-! What the two passes record of every buffer entry beside its placement. The first pass shapes
an entry by its tile: one boolean per memory level below the tile at each create position, the
positions running from the first up to the tile's rank, and the first outside all loops only at
the root tile at the target's top level. The second pass fills its trip counts and bytes moved:
the bytes moved at a position denote the position's size times its trip count. Trip counts are
products of tile variables and the constant one, so folding their constants never cuts a value;
that is what makes the bytes moved exact. -/

namespace TileSched

open Solving

namespace TileBuffer

variable {b : TileBuffer} {m m' : Model}

structure Shaped (level rank : Nat) (b : TileBuffer) : Prop where
  rows : ∀ row ∈ b.places, row.length = level
  positions : b.places.length + b.firstPos = rank + 1
  firstPos_le : b.firstPos ≤ 1

/-- The trip counts and bytes moved of a buffer entry: the bytes moved at a create position denote
the position's size times its trip count, and the counts carried per dimension are unit constants. -/
structure Filled (m : Model) (b : TileBuffer) : Prop where
  writes : ∀ (slot w : Nat), b.writes[slot]? = some w → ∃ sz tr, b.sizes[slot]? = some sz ∧
    b.trips[slot]? = some tr ∧ m.WordConst w ∧ m.Denotes w fun val => val sz * val tr
  dimTrips : ∀ e ∈ b.dimTrips, m.UnitConst e

theorem Filled.grows (h : b.Filled m) (hg : m.Grows m') : b.Filled m' := by
  refine ⟨fun slot w hw => ?_, fun e he => (h.dimTrips e he).grows hg⟩
  obtain ⟨sz, tr, hsz, htr, hword, hden⟩ := h.writes slot w hw
  exact ⟨sz, tr, hsz, htr, hword.grows hg, hden.grows hg⟩

theorem filled_of_empty (hw : b.writes = []) (hd : b.dimTrips = []) : b.Filled m :=
  ⟨fun _ _ h => by simp [hw] at h, fun _ he => by simp [hd] at he⟩

end TileBuffer

inductive TileTree.UnderScopes (t : TileTree) : Nat → Prop
  | root : t.UnderScopes t.root
  | child {p c : Nat} {cs : List Nat} : t.UnderScopes p → t.kind p = .ok .scope → t.children p = .ok cs →
      c ∈ cs → t.UnderScopes c

/-- Every tile entry of the memo sits at a tile node of `t`, and its buffers are shaped by the
node, created outside all loops only at a tile with no tile above it at the top level of `tgt`,
and filled in the model. -/
def SolveState.Accounted (t : TileTree) (tgt : Target) (s : SolveState) : Prop :=
  ∀ id info, s.memo.tile? id = some info → ∃ tile, t.kind id = .ok (.tile tile) ∧
    ∀ b ∈ info.buffers, b.Shaped tile.level tile.bounds.length ∧
      (b.firstPos = 0 → t.UnderScopes id ∧ tile.level = tgt.topLevel) ∧ b.Filled s.model

section Accounted

variable {t : TileTree} {tgt : Target} {s s' : SolveState}

theorem SolveState.Accounted.of_grows (h : s.Accounted t tgt) (hg : s.model.Grows s'.model)
    (ht : s'.memo.tiles = s.memo.tiles) : s'.Accounted t tgt := by
  intro id info hid
  have hid' : s.memo.tile? id = some info := by simpa [SolveMemo.tile?, ht] using hid
  obtain ⟨tile, hkind, hbs⟩ := h id info hid'
  exact ⟨tile, hkind, fun b hb => ⟨(hbs b hb).1, (hbs b hb).2.1, (hbs b hb).2.2.grows hg⟩⟩

theorem SolveState.Accounted.set_tile (h : s.Accounted t tgt) {id : Nat} {tile : TileNode} {info : TileInfo}
    (hkind : t.kind id = .ok (.tile tile))
    (hinfo : ∀ b ∈ info.buffers, b.Shaped tile.level tile.bounds.length ∧
      (b.firstPos = 0 → t.UnderScopes id ∧ tile.level = tgt.topLevel) ∧ b.Filled s.model) :
    { s with memo := { s.memo with tiles := s.memo.tiles.set! id (some info) } }.Accounted t tgt := by
  intro id' info' hid
  simp only [SolveMemo.tile?, getD_set!] at hid
  split at hid
  · cases hid
    rename_i hsame
    obtain ⟨rfl, -⟩ := hsame
    exact ⟨tile, hkind, hinfo⟩
  · exact h id' info' hid

theorem SolveState.accounted_new (n : Nat) : (SolveState.new {} n).Accounted t tgt := by
  intro id info hi
  simp only [SolveState.new, SolveMemo.empty, SolveMemo.tile?, Array.getD_eq_getD_getElem?,
    Array.getElem?_replicate] at hi
  split at hi <;> simp at hi

end Accounted

structure Accounts (t : TileTree) (tgt : Target) (s s' : SolveState) : Prop where
  keeps : Keeps s s'
  accounted : s.Sound → s.Accounted t tgt → s'.Accounted t tgt

namespace Accounts

variable {t : TileTree} {tgt : Target}

theorem refl (s : SolveState) : Accounts t tgt s s := ⟨Keeps.refl s, fun _ h => h⟩

theorem trans {a b c : SolveState} (h₁ : Accounts t tgt a b) (h₂ : Accounts t tgt b c) :
    Accounts t tgt a c :=
  ⟨h₁.keeps.trans h₂.keeps, fun hs ha => h₂.accounted (h₁.keeps.sound hs) (h₁.accounted hs ha)⟩

instance : Std.Refl (Accounts t tgt) := ⟨refl⟩

instance : IsTrans SolveState (Accounts t tgt) := ⟨fun _ _ _ => trans⟩

end Accounts

theorem Solving.Steady.accounts {t : TileTree} {tgt : Target} {s s' : SolveState} (h : Steady s s') :
    Accounts t tgt s s' :=
  ⟨h.keeps, fun _ ha => ha.of_grows h.grows h.tiles⟩

theorem Solving.Moves.accounts {t : TileTree} {tgt : Target} {α : Type} {x : Solving α}
    (h : Moves Steady x) : Moves (Accounts t tgt) x :=
  fun _ _ _ hr => (h _ _ _ hr).accounts

namespace Init

variable {g : Dataflow} {tgt : Target} {t : TileTree}

theorem accounts_finishTile {id : Nat} {tile : TileNode} {ctx : InitContext} {domain : DomainInfo}
    {children : List (Nat × InitResult)} (hkind : t.kind id = .ok (.tile tile))
    (hctx : ctx.parent = none → t.UnderScopes id) :
    Moves (Accounts t tgt) (finishTile g tgt t id tile ctx domain children) := by
  intro s r s' h
  refine ⟨keeps_finishTile g tgt t id tile ctx domain children s r s' h, fun _ ha => ?_⟩
  obtain ⟨backward, defUse, placed, s₁, hs₁, hback, -, hshape, hs'⟩ := runs_finishTile h
  refine ((ha.of_grows hs₁.grows hs₁.tiles).set_tile hkind fun b hb => ?_).of_grows hs'.grows hs'.tiles
  obtain ⟨hrows, hlen, hfirst, hw, hd⟩ := hshape b hb
  have hle : b.firstPos ≤ 1 := by
    rw [hfirst]
    split <;> omega
  refine ⟨⟨hrows, by omega, hle⟩, fun h0 => ?_, TileBuffer.filled_of_empty hw hd⟩
  rw [hfirst] at h0
  split at h0
  · rename_i htop
    exact ⟨hctx (Option.isNone_iff_eq_none.1 htop.1), htop.2⟩
  · cases h0

theorem accounts_visit :
    ∀ (f id : Nat) (ctx : InitContext), (ctx.parent = none → t.UnderScopes id) →
      Moves (Accounts t tgt) (visit g tgt t f id ctx)
  | 0, _, _, _ => Moves.pure _
  | f + 1, id, ctx, hctx => by
    intro s r s' h
    rw [visit] at h
    obtain ⟨kind, s₀, hk, h₀⟩ := runs_bind.1 h
    obtain ⟨hkind, rfl⟩ := runs_tree.1 hk
    clear h hk
    revert h₀
    refine (?_ : Moves (Accounts t tgt) _) s₀ r s'
    split
    · exact (steady_visitLeaf _ _ _ _ _).accounts
    · refine Moves.bind (steady_cached id).accounts fun r => ?_
      split
      · exact Moves.pure _
      · -- the children have this tile above them
        exact Moves.bind (steady_domainInfo _ _ _ _).accounts fun _ => Moves.bind (Moves.tree _) fun _ =>
          Moves.bind (Moves.mapM fun c _ => Moves.bind (accounts_visit f c _ fun h0 => by cases h0)
            fun _ => Moves.pure _) fun _ => accounts_finishTile hkind hctx
    · -- a scope passes its context on: with no tile above, its children are reached through it
      intro s₁ r₁ s₂ h₁
      obtain ⟨cs, s₃, hrun, h₂⟩ := runs_bind.1 h₁
      obtain ⟨hcs, rfl⟩ := runs_tree.1 hrun
      exact (Moves.bind (Moves.mapM fun c hc => accounts_visit f c ctx fun h0 => .child (hctx h0) hkind hcs hc)
        fun _ => Moves.pure _) _ _ _ h₂

end Init

namespace TileInfo

theorem mem_of_buffer? {T : TileInfo} {bid : BufferId} {b : TileBuffer} (h : T.buffer? bid = some b) :
    b ∈ T.buffers := by
  obtain ⟨i, -, hi⟩ := Option.bind_eq_some_iff.1 h
  exact List.mem_of_getElem? hi

end TileInfo

section Products

variable {s s' : SolveState} {e : Nat}

theorem runs_product_unit {fs : List Nat} (hb : s.model.Built) (hfs : ∀ f ∈ fs, s.model.UnitConst f)
    (h : Runs (product fs) s e s') : Steady s s' ∧ s'.model.UnitConst e := by
  refine ⟨steady_product fs s e s' h, ?_⟩
  obtain ⟨m, hm, rfl⟩ := runs_buildChecked.1 h
  exact Model.UnitConst.product hb.constantsNamed hfs hm

theorem runs_mul_unit {a b : Nat} (hb : s.model.Built) (ha : s.model.WordConst a) (hu : s.model.UnitConst b)
    (h : Runs (mul a b) s e s') :
    Steady s s' ∧ s'.model.WordConst e ∧ s'.model.Denotes e fun val => val a * val b := by
  refine ⟨steady_mul a b s e s' h, ?_⟩
  obtain ⟨m, hm, rfl⟩ := runs_buildChecked.1 h
  exact ⟨Model.WordConst.product hb.constantsNamed hm, Model.Denotes.mul_unit hb.constantsNamed ha hu hm⟩

end Products

namespace Writes

variable {t : TileTree} {tgt : Target}

def AccountsFrom (t : TileTree) (tgt : Target) (m : Model) (s s' : SolveState) : Prop :=
  m.Grows s.model → Accounts t tgt s s'

instance (m : Model) : Std.Refl (AccountsFrom t tgt m) := ⟨fun s _ => Accounts.refl s⟩

instance (m : Model) : IsTrans SolveState (AccountsFrom t tgt m) :=
  ⟨fun _ _ _ h₁ h₂ hm => (h₁ hm).trans (h₂ (hm.trans (h₁ hm).keeps.grows))⟩

theorem runs_inheritedTrips {s s' : SolveState} {rank : Nat} {domain : DomainInfo} {parent : Option Nat}
    {one : Nat} {bid : BufferId} {inherited : List Nat}
    (h : Runs (inheritedTrips s.memo rank domain parent one bid) s inherited s')
    (ha : s.Accounted t tgt) (hone : s.model.UnitConst one) :
    s' = s ∧ ∀ e ∈ inherited, s.model.UnitConst e := by
  unfold inheritedTrips at h
  cases parent with
  | none =>
    obtain ⟨rfl, rfl⟩ := runs_pure.1 h
    exact ⟨rfl, fun e he => List.eq_of_mem_replicate he ▸ hone⟩
  | some p =>
    dsimp only at h
    split at h
    · rename_i pb hpb
      obtain ⟨rfl, rfl⟩ := runs_pure.1 h
      refine ⟨rfl, fun e he => ?_⟩
      obtain ⟨k, -, rfl⟩ := List.mem_map.1 he
      obtain ⟨T, hT, hpbT⟩ := Option.bind_eq_some_iff.1 hpb
      obtain ⟨_, -, hbs⟩ := ha p T hT
      have hfill := (hbs pb (TileInfo.mem_of_buffer? hpbT)).2.2
      cases hl : (domain.dimsMap.lookup k).bind (pb.dimTrips[·]?) with
      | none => exact hone
      | some e' =>
        obtain ⟨j, -, hj⟩ := Option.bind_eq_some_iff.1 hl
        exact hfill.dimTrips e' (List.mem_of_getElem? hj)
    · exact absurd h not_runs_throw

theorem accounts_fillBuffer {m : Model} {id rank : Nat} {domain : DomainInfo} {parent : Option Nat}
    {one : Nat} {bid : BufferId} (hvars : ∀ e ∈ domain.tileVars, ∃ v, m.nodes[e]? = some (.var v))
    (hone : m.nodes[one]? = some (.const 1)) :
    Moves (AccountsFrom t tgt m) (fillBuffer id rank domain parent one bid) := by
  intro s u s' h hm
  refine ⟨keeps_fillBuffer id rank domain parent one bid s u s' h, fun hs ha => ?_⟩
  -- the tile variables and one are unit constants of every model grown from `s`
  have hvarU : ∀ m', s.model.Grows m' → ∀ e ∈ domain.tileVars, m'.UnitConst e := by
    intro m' hg e he
    obtain ⟨v, hv⟩ := hvars e he
    exact .of_var (hg.nodes _ _ (hm.nodes _ _ hv))
  have honeU : ∀ m', s.model.Grows m' → m'.UnitConst one := fun m' hg =>
    ⟨_, hg.nodes _ _ (hm.nodes _ _ hone), fun k hk => by cases hk; rfl⟩
  unfold fillBuffer at h
  obtain ⟨a, t₀, hget, h₀⟩ := runs_bind.1 h
  obtain ⟨rfl, rfl⟩ := runs_get.1 hget
  clear h
  obtain ⟨inherited, t₁, hinh, h₁⟩ := runs_bind.1 h₀
  clear h₀
  obtain ⟨rfl, hinhU⟩ := runs_inheritedTrips hinh ha (honeU _ (Model.Grows.refl _))
  split at h₁
  swap
  · exact absurd h₁ not_runs_throw
  rename_i info hinfo
  obtain ⟨T, hT, hinfoT⟩ := Option.bind_eq_some_iff.1 hinfo
  have hplaced := hs.placed id T hT info (TileInfo.mem_of_buffer? hinfoT)
  obtain ⟨dimTrips, t₂, hdim, h₂⟩ := runs_bind.1 h₁
  obtain ⟨total, t₃, htot, h₃⟩ := runs_bind.1 h₂
  obtain ⟨tw, t₄, htw, h₄⟩ := runs_bind.1 h₃
  clear h₁ h₂ h₃
  -- the count per dimension: a tile variable or one, times the count carried in
  have key₂ := Moves.mapM_post (R := Steady) (I := fun t => t.model.Built ∧ t₁.model.Grows t.model)
    (Q := fun e t => t.model.UnitConst e) (fun _ _ hI hst => ⟨hst.built hI.1, hI.2.trans hst.grows⟩)
    (fun _ _ _ hq hst => hq.grows hst.grows) ?dimMoves ?dimStep hdim
  case dimMoves =>
    intro k _
    dsimp only
    split
    · exact Moves.bind (Moves.tree _) fun _ => Moves.bind (Moves.tree _) fun _ => steady_mul _ _
    · exact Moves.bind (Moves.pure _) fun _ => Moves.bind (Moves.tree _) fun _ => steady_mul _ _
  case dimStep =>
    intro k _ w e w' hI hr
    dsimp only at hr
    -- the own count is a tile variable or one: a unit constant either way
    obtain ⟨own, hownU, hr₁⟩ : ∃ own, w.model.UnitConst own ∧
        Runs (do let inh ← tree (itemAt inherited k); mul own inh) w e w' := by
      split at hr
      · obtain ⟨own, w₁, hown, hr₁⟩ := runs_bind.1 hr
        obtain ⟨hitem, hw₁⟩ := runs_tree.1 hown
        subst w₁
        exact ⟨own, hvarU _ hI.2 own (List.mem_of_getElem? (itemAt_eq_ok.1 hitem)), hr₁⟩
      · obtain ⟨own, w₁, hown, hr₁⟩ := runs_bind.1 hr
        obtain ⟨rfl, hw₁⟩ := runs_pure.1 hown
        subst w₁
        exact ⟨one, honeU _ hI.2, hr₁⟩
    obtain ⟨inh, w₂, hinh', hr₂⟩ := runs_bind.1 hr₁
    obtain ⟨hitem, hw₂⟩ := runs_tree.1 hinh'
    subst w₂
    have hinhk : w.model.UnitConst inh := (hinhU inh (List.mem_of_getElem? (itemAt_eq_ok.1 hitem))).grows hI.2
    have hprod : Runs (product [own, inh]) w e w' := hr₂
    refine (runs_product_unit hI.1 ?_ hprod).2
    intro f hf
    rcases List.mem_pair.1 hf with rfl | rfl
    · exact hownU
    · exact hinhk
  obtain ⟨hs₂, hdimU⟩ := key₂
  have hb₂ : t₂.model.Built := hs₂.built hs.built
  obtain ⟨hs₃, htotU⟩ := runs_product_unit hb₂ (fun e he => (hinhU e he).grows hs₂.grows) htot
  have hg₃ : t₁.model.Grows t₃.model := hs₂.grows.trans hs₃.grows
  -- each position: its trip count a unit constant, its bytes moved its size times that count
  have key₄ := Moves.mapM_forall₂ (R := Steady) (I := fun t => t.model.Built ∧ t₃.model.Grows t.model)
    (Q := fun (x : Nat × Nat) (y : Nat × Nat) t => ∃ sz, info.sizes[x.2]? = some sz ∧ t.model.UnitConst y.1 ∧
      t.model.WordConst y.2 ∧ t.model.Denotes y.2 fun val => val sz * val y.1)
    (fun _ _ hI hst => ⟨hst.built hI.1, hI.2.trans hst.grows⟩)
    (fun _ _ _ _ hq hst => by
      obtain ⟨sz, hsz, hu, hw, hd⟩ := hq
      exact ⟨sz, hsz, hu.grows hst.grows, hw.grows hst.grows, hd.grows hst.grows⟩) ?twMoves ?twStep htw
  case twMoves =>
    rintro ⟨pos, slot⟩ -
    exact Moves.bind (Moves.mapM fun _ _ => Moves.tree _) fun _ => Moves.bind (steady_product _) fun _ =>
      Moves.bind (Moves.tree _) fun _ => Moves.bind (steady_mul _ _) fun _ => Moves.pure _
  case twStep =>
    rintro ⟨pos, slot⟩ - w y w' hI hr
    dsimp only at hr
    obtain ⟨factors, t₅, hfac, hr₁⟩ := runs_bind.1 hr
    have hs₅ : Steady w t₅ := Moves.mapM (fun _ _ => Moves.tree _) _ _ _ hfac
    have hfacU : ∀ f ∈ factors, f ∈ domain.tileVars := runs_mapM_post (fun _ _ _ _ _ hf => by
      obtain ⟨hf, -⟩ := runs_tree.1 hf
      exact List.mem_of_getElem? (itemAt_eq_ok.1 hf)) hfac
    have hg₅ : t₁.model.Grows t₅.model := hg₃.trans (hI.2.trans hs₅.grows)
    obtain ⟨trip, t₆, htrip, hr₂⟩ := runs_bind.1 hr₁
    obtain ⟨hs₆, htripU⟩ := runs_product_unit (hs₅.built hI.1) (fun f hf => by
      rcases List.mem_append.1 hf with hf | hf
      · exact hvarU _ hg₅ f (hfacU f hf)
      · rw [List.mem_singleton.1 hf]
        exact htotU.grows (hI.2.trans hs₅.grows)) htrip
    obtain ⟨size, t₇, hsize, hr₃⟩ := runs_bind.1 hr₂
    obtain ⟨hsz, ht₇⟩ := runs_tree.1 hsize
    subst t₇
    obtain ⟨moved, t₈, hmoved, hr₄⟩ := runs_bind.1 hr₃
    obtain ⟨rfl, rfl⟩ := runs_pure.1 hr₄
    have hszW : t₆.model.WordConst size :=
      (hplaced.sizes size (List.mem_of_getElem? (itemAt_eq_ok.1 hsz))).grows (hg₅.trans hs₆.grows)
    obtain ⟨hs₈, hw, hd⟩ := runs_mul_unit (hs₆.built (hs₅.built hI.1)) hszW htripU hmoved
    exact ⟨size, itemAt_eq_ok.1 hsz, htripU.grows hs₈.grows, hw, hd⟩
  obtain ⟨hs₄, htwQ⟩ := key₄
  have htwQ := htwQ ⟨hs₃.built hb₂, Model.Grows.refl _⟩
  have hsteady : Steady t₁ t₄ := hs₂.trans (hs₃.trans hs₄)
  -- the entry written is `info` with its counts
  split at h₄
  swap
  · exact absurd h₄ not_runs_throw
  rename_i T' hT'
  rw [hT] at hT'
  cases hT'
  split at h₄
  swap
  · exact absurd h₄ not_runs_throw
  rename_i slot hslot
  obtain rfl := runs_memo.1 h₄
  have hslotInfo : T.buffers[slot]? = some info := by
    rw [TileInfo.buffer?, hslot] at hinfoT
    exact hinfoT
  have ha₄ := ha.of_grows hsteady.grows hsteady.tiles
  have hT₄ : t₄.memo.tile? id = some T := by simpa [SolveMemo.tile?, hsteady.tiles] using hT
  obtain ⟨tileN, hkind, hbs⟩ := ha₄ id T hT₄
  refine ha₄.set_tile hkind fun b hb => ?_
  rcases mem_modify hb with hb | ⟨b₀, hb₀, rfl⟩
  · exact hbs b hb
  rw [hslotInfo] at hb₀
  cases hb₀
  obtain ⟨hshape, hfirst, -⟩ := hbs info (List.mem_of_getElem? hslotInfo)
  refine ⟨⟨hshape.rows, hshape.positions, hshape.firstPos_le⟩, hfirst, fun k w hw => ?_,
    fun e he => (hdimU ⟨hs.built, Model.Grows.refl _⟩ e he).grows (hs₃.grows.trans hs₄.grows)⟩
  obtain ⟨y, hy, rfl⟩ := Option.map_eq_some_iff.1 (List.getElem?_map ▸ hw)
  have hk : k < tw.length := (List.getElem?_eq_some_iff.1 hy).1
  have hk' : k < info.positions.zipIdx.length := htwQ.length_eq ▸ hk
  obtain ⟨sz, hsz, hu, hword, hden⟩ := htwQ.get hk' hk
  have hyk : tw[k] = y := Option.some.inj ((List.getElem?_eq_getElem hk).symm.trans hy)
  simp only [List.get_eq_getElem, List.getElem_zipIdx, Nat.zero_add, hyk] at hsz hu hword hden
  exact ⟨sz, y.1, hsz, by simp [hy], hword, hden⟩

theorem runs_const_one {s s' : SolveState} {one : Nat} (hb : s.model.Built) (h : Runs (const 1) s one s') :
    s'.model.nodes[one]? = some (.const 1) := by
  obtain ⟨rfl, rfl⟩ := runs_build.1 h
  exact Model.getElem?_constant hb.constantsNamed 1

theorem accounts_visit : ∀ (f id : Nat) (parent : Option Nat), Moves (Accounts t tgt) (visit t f id parent)
  | 0, _, _ => Moves.pure _
  | f + 1, id, parent => by
    intro s u s' h
    refine ⟨keeps_visit t (f + 1) id parent s u s' h, fun hs ha => ?_⟩
    rw [visit] at h
    obtain ⟨kind, s₀, hk, h₀⟩ := runs_bind.1 h
    obtain ⟨-, hs₀⟩ := runs_tree.1 hk
    subst s₀
    split at h₀
    · obtain ⟨-, rfl⟩ := runs_pure.1 h₀
      exact ha
    · obtain ⟨st, s₁, hget, h₁⟩ := runs_bind.1 h₀
      obtain ⟨hst, hs₁⟩ := runs_get.1 hget
      subst st s₁
      split at h₁
      swap
      · exact absurd h₁ not_runs_throw
      rename_i domain hdomain
      obtain ⟨one, s₂, hone, h₂⟩ := runs_bind.1 h₁
      obtain ⟨st', s₃, hget', h₃⟩ := runs_bind.1 h₂
      obtain ⟨hst', hs₃⟩ := runs_get.1 hget'
      subst st' s₃
      split at h₃
      swap
      · exact absurd h₃ not_runs_throw
      obtain ⟨_, s₄, hloop, h₄⟩ := runs_bind.1 h₃
      -- the tile variables are variables and `one` is the constant one, in the model of `s₂` on
      have hs₂ : Steady s s₂ := steady_const 1 _ _ _ hone
      have hone' := runs_const_one hs.built hone
      have hvars : ∀ e ∈ domain.tileVars, ∃ v, s₂.model.nodes[e]? = some (.var v) := fun e he => by
        obtain ⟨v, hv⟩ := hs.domains id domain hdomain e he
        exact ⟨v, hs₂.grows.nodes _ _ hv⟩
      have h₂₄ : AccountsFrom t tgt s₂.model s₂ s₄ := (Moves.forIn _ fun _ _ _ =>
        Moves.bind (accounts_fillBuffer hvars hone') fun _ => Moves.pure _) _ _ _ hloop
      have k₄ := hs₂.accounts.trans (h₂₄ (Model.Grows.refl _))
      have h₄' : Accounts t tgt s₄ s' := (Moves.bind (Moves.tree _) fun _ => Moves.bind (Moves.forIn _
        fun _ _ _ => Moves.bind (accounts_visit f _ _) fun _ => Moves.pure _) fun _ => Moves.pure _) _ _ _ h₄
      exact (k₄.trans h₄').accounted hs ha
    · exact ((Moves.bind (Moves.tree _) fun _ => Moves.bind (Moves.forIn _ fun _ _ _ =>
        Moves.bind (accounts_visit f _ _) fun _ => Moves.pure _) fun _ => Moves.pure _) s u s' h₀).accounted hs ha

end Writes

theorem accounts_propagateWrites (t : TileTree) (tgt : Target) : Moves (Accounts t tgt) t.propagateWrites :=
  Writes.accounts_visit _ _ _

theorem accounts_createVariables (g : Dataflow) (tgt : Target) (t : TileTree) :
    Moves (Accounts t tgt) (t.createVariables g tgt) :=
  Init.accounts_visit _ _ _ fun _ => .root

end TileSched
