import Mathlib
import TileSched.Proofs.Schedule.Objective
import TileSched.Proofs.Schedule.FirstPass
/-! Write volumes. The second pass gives a buffer entry at a tile of rank `r` one trip count per
dimension: the tile's own count where the buffer depends on the dimension, else one, times the
count carried in from the parent on the dimension it passes through. The bytes moved at the
innermost create position `r` are the entry's size there times the product of these counts over
every dimension of the tile. The dimensions the buffer does not depend on take part: the count
carried in on them need not be one, when a merged tile sends several of its dimensions through one
dimension of its parent. -/

namespace TileSched

section Lists

theorem prod_map_filter_eq_ite {α : Type} (p : α → Bool) (f : α → Int) (l : List α) :
    ((l.filter p).map f).prod = (l.map fun a => if p a then f a else 1).prod := by
  induction l with
  | nil => simp
  | cons a l ih => by_cases h : p a <;> simp [h, ih]

theorem map_range_getD {α : Type} (l : List α) (d : α) : (List.range l.length).map (l.getD · d) = l := by
  apply List.ext_getElem
  · simp
  · intro i _ h
    simp [List.getD_eq_getElem?_getD, h]

end Lists

namespace Model

variable {m m' : Model} {e : Nat}

theorem foldlM_factorStep_unit (val : Nat → Int) :
    ∀ {fs : List Nat}, (∀ f ∈ fs, ∃ n, m.nodes[f]? = some n ∧ ∀ k, n = .const k → k = 1 ∧ val f = 1) →
      ∀ {acc r : Int × List Nat}, acc.1 = 1 → fs.foldlM m.factorStep acc = .ok r →
        r.1 = 1 ∧ (r.2.map val).prod = (acc.2.map val).prod * (fs.map val).prod
  | [], _, acc, r, _, h => by
    rw [List.foldlM_nil, pure_eq_ok] at h
    subst h
    simp_all
  | f :: fs, hfs, acc, r, h1, h => by
    rw [List.foldlM_cons] at h
    obtain ⟨acc', hstep, hrest⟩ := bind_eq_ok.1 h
    obtain ⟨n, hn, hk⟩ := hfs f List.mem_cons_self
    have ih := @foldlM_factorStep_unit val fs fun g hg => hfs g (List.mem_cons_of_mem _ hg)
    unfold factorStep at hstep
    rw [entryAt_eq_ok.2 hn] at hstep
    obtain ⟨n', hn', hstep⟩ := bind_eq_ok.1 hstep
    cases hn'
    by_cases hc : ∃ k, n = .const k
    · -- a constant factor is the constant one, worth one
      obtain ⟨k, rfl⟩ := hc
      obtain ⟨hk1, hv⟩ := hk k rfl
      subst hk1
      rw [pure_eq_ok] at hstep
      subst hstep
      have hsat : I64.satMul acc.1 1 = 1 := by
        rw [h1]
        decide
      obtain ⟨hr, hprod⟩ := ih hsat hrest
      refine ⟨hr, ?_⟩
      rw [hprod]
      simp [hv]
    · split at hstep
      · exact absurd ⟨_, rfl⟩ hc
      rw [pure_eq_ok] at hstep
      subst hstep
      obtain ⟨hr, hprod⟩ := @ih (acc.1, acc.2 ++ [f]) r h1 hrest
      refine ⟨hr, ?_⟩
      rw [hprod]
      simp [mul_assoc]

theorem Denotes.product_unit (hcn : m.ConstantsNamed) {fs : List Nat} (hfs : ∀ f ∈ fs, m.UnitConst f)
    (h : m.product fs = .ok (m', e)) : m'.Denotes e fun val => (fs.map val).prod := by
  obtain ⟨c, rest, hfold, -⟩ := product_cases h
  refine Denotes.product_fold hcn h hfold fun m'' hg val hval => ?_
  -- under an evaluation, a factor that is a constant is the constant one
  have hunit : ∀ f ∈ fs, ∃ n, m.nodes[f]? = some n ∧ ∀ k, n = .const k → k = 1 ∧ val f = 1 := by
    intro f hf
    obtain ⟨n, hn, hk⟩ := hfs f hf
    refine ⟨n, hn, fun k hnk => ⟨hk k hnk, ?_⟩⟩
    have hv : val f = k := hval.derived f (.const k) (hg.nodes _ _ (hnk ▸ hn))
    rw [hv, hk k hnk]
  obtain ⟨hc, hprod⟩ := foldlM_factorStep_unit val hunit rfl hfold
  dsimp only at hc hprod
  rw [hc, hprod]
  simp

theorem Denotes.prod_forall₂ {α : Type} {F : α → (Nat → Int) → Int} :
    ∀ {xs : List α} {es : List Nat}, List.Forall₂ (fun x e => m.Denotes e (F x)) xs es →
      ∀ m', m.Grows m' → ∀ val, m'.Evaluation val → (es.map val).prod = (xs.map fun x => F x val).prod
  | [], [], .nil, _, _, _, _ => rfl
  | _ :: _, _ :: _, .cons h hs, m', hg, val, hval => by
    rw [List.map_cons, List.map_cons, List.prod_cons, List.prod_cons, h m' hg val hval,
      Denotes.prod_forall₂ hs m' hg val hval]

end Model

open Solving

theorem runs_product_denotes {s s' : SolveState} {e : Nat} {fs : List Nat} (hb : s.model.Built)
    (hfs : ∀ f ∈ fs, s.model.UnitConst f) (h : Runs (product fs) s e s') :
    Steady s s' ∧ s'.model.UnitConst e ∧ s'.model.Denotes e fun val => (fs.map val).prod := by
  obtain ⟨hst, hu⟩ := runs_product_unit hb hfs h
  refine ⟨hst, hu, ?_⟩
  obtain ⟨m, hm, rfl⟩ := runs_buildChecked.1 h
  exact Model.Denotes.product_unit hb.constantsNamed hfs hm

namespace TileBuffer

variable {b : TileBuffer} {m m' : Model} {rank : Nat}

/-- The bytes moved at a buffer entry's innermost create position `rank` are its size there times
the product of its trip counts, one for each of the tile's `rank` dimensions. -/
def Balanced (rank : Nat) (m : Model) (b : TileBuffer) : Prop :=
  ∀ (slot w : Nat), b.writes[slot]? = some w → b.positions[slot]? = some rank →
    ∃ sz, b.sizes[slot]? = some sz ∧ b.dimTrips.length = rank ∧
      m.Denotes w fun val => val sz * (b.dimTrips.map val).prod

theorem Balanced.grows (h : b.Balanced rank m) (hg : m.Grows m') : b.Balanced rank m' := by
  intro slot w hw hpos
  obtain ⟨sz, hsz, hlen, hden⟩ := h slot w hw hpos
  exact ⟨sz, hsz, hlen, hden.grows hg⟩

theorem balanced_of_empty (hw : b.writes = []) : b.Balanced rank m := fun _ _ h => by simp [hw] at h

end TileBuffer

def SolveState.Balanced (t : TileTree) (s : SolveState) : Prop :=
  ∀ id info, s.memo.tile? id = some info → ∀ tile, t.kind id = .ok (.tile tile) →
    ∀ b ∈ info.buffers, b.Balanced tile.bounds.length s.model

section Balanced

variable {t : TileTree} {s s' : SolveState}

theorem SolveState.Balanced.of_grows (h : s.Balanced t) (hg : s.model.Grows s'.model)
    (ht : s'.memo.tiles = s.memo.tiles) : s'.Balanced t := by
  intro id info hid tile hkind b hb
  have hid' : s.memo.tile? id = some info := by simpa [SolveMemo.tile?, ht] using hid
  exact (h id info hid' tile hkind b hb).grows hg

theorem SolveState.Balanced.set_tile (h : s.Balanced t) {id : Nat} {info : TileInfo}
    (hinfo : ∀ tile, t.kind id = .ok (.tile tile) → ∀ b ∈ info.buffers, b.Balanced tile.bounds.length s.model) :
    { s with memo := { s.memo with tiles := s.memo.tiles.set! id (some info) } }.Balanced t := by
  intro id' info' hid
  simp only [SolveMemo.tile?, getD_set!] at hid
  split at hid
  · cases hid
    rename_i hsame
    obtain ⟨rfl, -⟩ := hsame
    exact hinfo
  · exact h id' info' hid

theorem SolveState.balanced_new (n : Nat) : (SolveState.new {} n).Balanced t := by
  intro id info hi
  simp only [SolveState.new, SolveMemo.empty, SolveMemo.tile?, Array.getD_eq_getD_getElem?,
    Array.getElem?_replicate] at hi
  split at hi <;> simp at hi

end Balanced

/-! The first pass leaves every entry it writes without bytes moved. -/

def BalanceKept (t : TileTree) (s s' : SolveState) : Prop := s.Balanced t → s'.Balanced t

instance (t : TileTree) : Std.Refl (BalanceKept t) := ⟨fun _ h => h⟩

instance (t : TileTree) : IsTrans SolveState (BalanceKept t) := ⟨fun _ _ _ h₁ h₂ h => h₂ (h₁ h)⟩

theorem Solving.Moves.balanceKept {t : TileTree} {α : Type} {x : Solving α} (h : Moves Steady x) :
    Moves (BalanceKept t) x :=
  fun _ _ _ hr hb => hb.of_grows (h _ _ _ hr).grows (h _ _ _ hr).tiles

namespace Init

variable {g : Dataflow} {tgt : Target} {t : TileTree}

theorem balanceKept_finishTile (id : Nat) (tile : TileNode) (ctx : InitContext) (domain : DomainInfo)
    (children : List (Nat × InitResult)) :
    Moves (BalanceKept t) (finishTile g tgt t id tile ctx domain children) := by
  intro s r s' h hb
  obtain ⟨backward, defUse, placed, s₁, hs₁, -, -, hshape, hs'⟩ := runs_finishTile h
  refine ((hb.of_grows hs₁.grows hs₁.tiles).set_tile fun _ _ b hb' => ?_).of_grows hs'.grows hs'.tiles
  exact TileBuffer.balanced_of_empty (hshape b hb').2.2.2.1

theorem balanceKept_visit : ∀ (f id : Nat) (ctx : InitContext), Moves (BalanceKept t) (visit g tgt t f id ctx)
  | 0, _, _ => Moves.pure _
  | f + 1, id, ctx => by
    rw [visit]
    refine Moves.bind (Moves.tree _) fun kind => ?_
    split
    · exact (steady_visitLeaf _ _ _ _ _).balanceKept
    · refine Moves.bind (steady_cached id).balanceKept fun r => ?_
      split
      · exact Moves.pure _
      · exact Moves.bind (steady_domainInfo _ _ _ _).balanceKept fun _ => Moves.bind (Moves.tree _) fun _ =>
          Moves.bind (Moves.mapM fun c _ => Moves.bind (balanceKept_visit f c _) fun _ => Moves.pure _)
            fun _ => balanceKept_finishTile _ _ _ _ _
    · exact Moves.bind (Moves.tree _) fun _ =>
        Moves.bind (Moves.mapM fun c _ => balanceKept_visit f c ctx) fun _ => Moves.pure _

end Init

theorem balanceKept_createVariables (g : Dataflow) (tgt : Target) (t : TileTree) :
    Moves (BalanceKept t) (t.createVariables g tgt) :=
  Init.balanceKept_visit _ _ _

/-! The second pass writes entries whose innermost bytes moved multiply every count per dimension. -/

structure Balances (t : TileTree) (tgt : Target) (s s' : SolveState) : Prop where
  accounts : Accounts t tgt s s'
  balanced : s.Sound → s.Accounted t tgt → s.Balanced t → s'.Balanced t

namespace Balances

variable {t : TileTree} {tgt : Target}

theorem refl (s : SolveState) : Balances t tgt s s := ⟨Accounts.refl s, fun _ _ h => h⟩

theorem trans {a b c : SolveState} (h₁ : Balances t tgt a b) (h₂ : Balances t tgt b c) :
    Balances t tgt a c :=
  ⟨h₁.accounts.trans h₂.accounts, fun hs ha hb =>
    h₂.balanced (h₁.accounts.keeps.sound hs) (h₁.accounts.accounted hs ha) (h₁.balanced hs ha hb)⟩

instance : Std.Refl (Balances t tgt) := ⟨refl⟩

instance : IsTrans SolveState (Balances t tgt) := ⟨fun _ _ _ => trans⟩

end Balances

theorem Solving.Steady.balances {t : TileTree} {tgt : Target} {s s' : SolveState} (h : Steady s s') :
    Balances t tgt s s' :=
  ⟨h.accounts, fun _ _ hb => hb.of_grows h.grows h.tiles⟩

namespace Writes

variable {t : TileTree} {tgt : Target}

def BalancesFrom (t : TileTree) (tgt : Target) (m : Model) (s s' : SolveState) : Prop :=
  m.Grows s.model → Balances t tgt s s'

instance (m : Model) : Std.Refl (BalancesFrom t tgt m) := ⟨fun s _ => Balances.refl s⟩

instance (m : Model) : IsTrans SolveState (BalancesFrom t tgt m) :=
  ⟨fun _ _ _ h₁ h₂ hm => (h₁ hm).trans (h₂ (hm.trans (h₁ hm).accounts.keeps.grows))⟩

theorem runs_inheritedTrips_length {memo : SolveMemo} {rank : Nat} {domain : DomainInfo}
    {parent : Option Nat} {one : Nat} {bid : BufferId} {s s' : SolveState} {inherited : List Nat}
    (h : Runs (inheritedTrips memo rank domain parent one bid) s inherited s') : inherited.length = rank := by
  unfold inheritedTrips at h
  cases parent with
  | none =>
    obtain ⟨rfl, -⟩ := runs_pure.1 h
    exact List.length_replicate
  | some p =>
    dsimp only at h
    split at h
    · obtain ⟨rfl, -⟩ := runs_pure.1 h
      simp
    · exact absurd h not_runs_throw

theorem prod_dimTrips_eq (val : Nat → Int) (p : Nat → Bool) (tv : Nat → Nat) {one : Nat}
    (hone : val one = 1) (inherited : List Nat) :
    (((List.range inherited.length).filter p).map fun k => val (tv k)).prod * (inherited.map val).prod =
      ((List.range inherited.length).map fun k =>
        val (if p k then tv k else one) * val (inherited.getD k 0)).prod := by
  rw [List.prod_map_mul, prod_map_filter_eq_ite]
  congr 1
  · congr 1
    refine List.map_congr_left fun k _ => ?_
    split <;> simp [hone]
  · calc (inherited.map val).prod
        = (((List.range inherited.length).map (inherited.getD · 0)).map val).prod := by rw [map_range_getD]
      _ = _ := by rw [List.map_map]; rfl

theorem balances_fillBuffer {m : Model} {id : Nat} {tile : TileNode} {domain : DomainInfo}
    {parent : Option Nat} {one : Nat} {bid : BufferId} (hkind : t.kind id = .ok (.tile tile))
    (hvars : ∀ e ∈ domain.tileVars, ∃ v, m.nodes[e]? = some (.var v))
    (hone : m.nodes[one]? = some (.const 1)) :
    Moves (BalancesFrom t tgt m) (fillBuffer id tile.bounds.length domain parent one bid) := by
  intro s u s' h hm
  refine ⟨accounts_fillBuffer hvars hone s u s' h hm, fun hs ha hbal => ?_⟩
  have hvarU : ∀ m', s.model.Grows m' → ∀ e ∈ domain.tileVars, m'.UnitConst e := by
    intro m' hg e he
    obtain ⟨v, hv⟩ := hvars e he
    exact .of_var (hg.nodes _ _ (hm.nodes _ _ hv))
  have honeU : ∀ m', s.model.Grows m' → m'.UnitConst one := fun m' hg =>
    ⟨_, hg.nodes _ _ (hm.nodes _ _ hone), fun k hk => by cases hk; rfl⟩
  have honeV : ∀ m', s.model.Grows m' → ∀ val, m'.Evaluation val → val one = 1 := fun m' hg val hval =>
    hval.derived one (.const 1) (hg.nodes _ _ (hm.nodes _ _ hone))
  unfold fillBuffer at h
  obtain ⟨a, t₀, hget, h₀⟩ := runs_bind.1 h
  obtain ⟨rfl, rfl⟩ := runs_get.1 hget
  clear h
  obtain ⟨inherited, t₁, hinh, h₁⟩ := runs_bind.1 h₀
  clear h₀
  have hlen := runs_inheritedTrips_length hinh
  obtain ⟨rfl, hinhU⟩ := runs_inheritedTrips hinh ha (honeU _ (Model.Grows.refl _))
  split at h₁
  swap
  · exact absurd h₁ not_runs_throw
  rename_i info hinfo
  obtain ⟨T, hT, hinfoT⟩ := Option.bind_eq_some_iff.1 hinfo
  have hplaced := hs.placed id T hT info (TileInfo.mem_of_buffer? hinfoT)
  obtain ⟨dimTrips, t₂, hdim, h₂⟩ := runs_bind.1 h₁
  obtain ⟨total, t₃, htot, h₃⟩ := runs_bind.1 h₂
  obtain ⟨tw, t₄, htw, h₄⟩ := runs_bind.1 h₃
  clear h₁ h₂ h₃
  -- the count per dimension: the own count, a tile variable or one, times the count carried in
  have key₂ := Moves.mapM_forall₂ (R := Steady) (I := fun t => t.model.Built ∧ t₁.model.Grows t.model)
    (Q := fun k e t => t.model.Denotes e fun val =>
      val (if info.mask.isRelated k then domain.tileVars.getD k 0 else one) * val (inherited.getD k 0))
    (fun _ _ hI hst => ⟨hst.built hI.1, hI.2.trans hst.grows⟩)
    (fun _ _ _ _ hq hst => hq.grows hst.grows) ?dimMoves ?dimStep hdim
  case dimMoves =>
    intro k _
    dsimp only
    split
    · exact Moves.bind (Moves.tree _) fun _ => Moves.bind (Moves.tree _) fun _ => steady_mul _ _
    · exact Moves.bind (Moves.pure _) fun _ => Moves.bind (Moves.tree _) fun _ => steady_mul _ _
  case dimStep =>
    intro k _ w e w' hI hr
    dsimp only at hr
    obtain ⟨own, hownU, hown, hr₁⟩ : ∃ own, w.model.UnitConst own ∧
        own = (if info.mask.isRelated k then domain.tileVars.getD k 0 else one) ∧
        Runs (do let inh ← tree (itemAt inherited k); mul own inh) w e w' := by
      split at hr
      · rename_i hrel
        obtain ⟨own, w₁, hown, hr₁⟩ := runs_bind.1 hr
        obtain ⟨hitem, hw₁⟩ := runs_tree.1 hown
        subst w₁
        have hk := itemAt_eq_ok.1 hitem
        refine ⟨own, hvarU _ hI.2 own (List.mem_of_getElem? hk), ?_, hr₁⟩
        simp [hrel, List.getD_eq_getElem?_getD, hk]
      · rename_i hrel
        obtain ⟨own, w₁, hown, hr₁⟩ := runs_bind.1 hr
        obtain ⟨rfl, hw₁⟩ := runs_pure.1 hown
        subst w₁
        exact ⟨one, honeU _ hI.2, by simp [hrel], hr₁⟩
    obtain ⟨inh, w₂, hinh', hr₂⟩ := runs_bind.1 hr₁
    obtain ⟨hitem, hw₂⟩ := runs_tree.1 hinh'
    subst w₂
    have hk := itemAt_eq_ok.1 hitem
    have hprod : Runs (product [own, inh]) w e w' := hr₂
    obtain ⟨-, -, hden⟩ := runs_product_denotes hI.1 (fun f hf => by
      rcases List.mem_pair.1 hf with rfl | rfl
      · exact hownU
      · exact (hinhU _ (List.mem_of_getElem? hk)).grows hI.2) hprod
    refine hden.congr fun _ _ val _ => ?_
    rw [← hown]
    simp [List.getD_eq_getElem?_getD, hk]
  obtain ⟨hs₂, hdimQ⟩ := key₂
  have hdimF := hdimQ ⟨hs.built, Model.Grows.refl _⟩
  have hb₂ : t₂.model.Built := hs₂.built hs.built
  obtain ⟨hs₃, htotU, htotD⟩ := runs_product_denotes hb₂ (fun e he => (hinhU e he).grows hs₂.grows) htot
  have hg₃ : t₁.model.Grows t₃.model := hs₂.grows.trans hs₃.grows
  -- each position: bytes moved its size times its trip count, the trip count the own counts of
  -- the dimensions below it that the buffer depends on, times every count carried in
  have key₄ := Moves.mapM_forall₂ (R := Steady) (I := fun t => t.model.Built ∧ t₃.model.Grows t.model)
    (Q := fun (x : Nat × Nat) (y : Nat × Nat) t => ∃ sz, info.sizes[x.2]? = some sz ∧
      t.model.Denotes y.2 (fun val => val sz * val y.1) ∧
      t.model.Denotes y.1 fun val => (((List.range x.1).filter info.mask.isRelated).map fun k =>
        val (domain.tileVars.getD k 0)).prod * (inherited.map val).prod)
    (fun _ _ hI hst => ⟨hst.built hI.1, hI.2.trans hst.grows⟩)
    (fun _ _ _ _ hq hst => by
      obtain ⟨sz, hsz, hd, htr⟩ := hq
      exact ⟨sz, hsz, hd.grows hst.grows, htr.grows hst.grows⟩) ?twMoves ?twStep htw
  case twMoves =>
    rintro ⟨pos, slot⟩ -
    exact Moves.bind (Moves.mapM fun _ _ => Moves.tree _) fun _ => Moves.bind (steady_product _) fun _ =>
      Moves.bind (Moves.tree _) fun _ => Moves.bind (steady_mul _ _) fun _ => Moves.pure _
  case twStep =>
    rintro ⟨pos, slot⟩ - w y w' hI hr
    dsimp only at hr
    obtain ⟨factors, t₅, hfac, hr₁⟩ := runs_bind.1 hr
    have hs₅ : Steady w t₅ := Moves.mapM (fun _ _ => Moves.tree _) _ _ _ hfac
    have hfacEq : factors = ((List.range pos).filter info.mask.isRelated).map (domain.tileVars.getD · 0) := by
      have hmap := runs_mapM_map (H := fun y => y) (G := (domain.tileVars.getD · 0)) (fun k _ _ y _ hy => by
        obtain ⟨hy, -⟩ := runs_tree.1 hy
        simp [List.getD_eq_getElem?_getD, itemAt_eq_ok.1 hy]) hfac
      simpa using hmap
    have hfacU : ∀ f ∈ factors, f ∈ domain.tileVars := runs_mapM_post (fun _ _ _ _ _ hf => by
      obtain ⟨hf, -⟩ := runs_tree.1 hf
      exact List.mem_of_getElem? (itemAt_eq_ok.1 hf)) hfac
    have hg₅ : t₃.model.Grows t₅.model := hI.2.trans hs₅.grows
    obtain ⟨trip, t₆, htrip, hr₂⟩ := runs_bind.1 hr₁
    obtain ⟨hs₆, htripU, htripD⟩ := runs_product_denotes (hs₅.built hI.1) (fun f hf => by
      rcases List.mem_append.1 hf with hf | hf
      · exact hvarU _ (hg₃.trans hg₅) f (hfacU f hf)
      · rw [List.mem_singleton.1 hf]
        exact htotU.grows hg₅) htrip
    obtain ⟨size, t₇, hsize, hr₃⟩ := runs_bind.1 hr₂
    obtain ⟨hsz, ht₇⟩ := runs_tree.1 hsize
    subst t₇
    obtain ⟨moved, t₈, hmoved, hr₄⟩ := runs_bind.1 hr₃
    obtain ⟨rfl, rfl⟩ := runs_pure.1 hr₄
    have hszW : t₆.model.WordConst size :=
      (hplaced.sizes size (List.mem_of_getElem? (itemAt_eq_ok.1 hsz))).grows ((hg₃.trans hg₅).trans hs₆.grows)
    obtain ⟨hs₈, -, hd⟩ := runs_mul_unit (hs₆.built (hs₅.built hI.1)) hszW htripU hmoved
    refine ⟨size, itemAt_eq_ok.1 hsz, hd, (htripD.congr fun m'' hg val hval => ?_).grows hs₈.grows⟩
    rw [List.map_append, List.prod_append, hfacEq, List.map_map, List.map_singleton, List.prod_singleton,
      htotD m'' ((hg₅.trans hs₆.grows).trans hg) val hval]
    rfl
  obtain ⟨hs₄, htwQ⟩ := key₄
  have htwF := htwQ ⟨hs₃.built hb₂, Model.Grows.refl _⟩
  have hsteady : Steady t₁ t₄ := hs₂.trans (hs₃.trans hs₄)
  -- the entry written is `info` with its counts
  split at h₄
  swap
  · exact absurd h₄ not_runs_throw
  rename_i T' hT'
  rw [hT] at hT'
  cases hT'
  split at h₄
  swap
  · exact absurd h₄ not_runs_throw
  rename_i slot hslot
  obtain rfl := runs_memo.1 h₄
  have hslotInfo : T.buffers[slot]? = some info := by
    rw [TileInfo.buffer?, hslot] at hinfoT
    exact hinfoT
  have hbal₄ := hbal.of_grows hsteady.grows hsteady.tiles
  have hT₄ : t₄.memo.tile? id = some T := by simpa [SolveMemo.tile?, hsteady.tiles] using hT
  refine hbal₄.set_tile fun tile' hkind' b hb => ?_
  rw [hkind] at hkind'
  cases hkind'
  rcases mem_modify hb with hb | ⟨b₀, hb₀, rfl⟩
  · exact hbal₄ id T hT₄ tile hkind b hb
  rw [hslotInfo] at hb₀
  cases hb₀
  -- at the innermost position the trip count is the product of the counts per dimension
  intro k w hw hpos
  obtain ⟨y, hy, rfl⟩ := Option.map_eq_some_iff.1 (List.getElem?_map ▸ hw)
  have hk : k < tw.length := (List.getElem?_eq_some_iff.1 hy).1
  have hk' : k < info.positions.zipIdx.length := htwF.length_eq ▸ hk
  obtain ⟨sz, hsz, hmovedD, htripD⟩ := htwF.get hk' hk
  have hyk : tw[k] = y := Option.some.inj ((List.getElem?_eq_getElem hk).symm.trans hy)
  have hkp : k < info.positions.length := by simpa using hk'
  have hposk : info.positions[k] = tile.bounds.length := by
    have hpos' : info.positions[k]? = some tile.bounds.length := hpos
    exact Option.some.inj ((List.getElem?_eq_getElem hkp).symm.trans hpos')
  simp only [List.get_eq_getElem, List.getElem_zipIdx, Nat.zero_add, hyk, hposk] at hsz hmovedD htripD
  refine ⟨sz, hsz, ?_, (hmovedD.congr fun m'' hg val hval => ?_)⟩
  · rw [← hdimF.length_eq, List.length_range]
  · have hg₁ : t₁.model.Grows m'' := hsteady.grows.trans hg
    rw [htripD m'' hg val hval]
    dsimp only
    rw [Model.Denotes.prod_forall₂ hdimF m'' ((hs₃.grows.trans hs₄.grows).trans hg) val hval, ← hlen,
      prod_dimTrips_eq val info.mask.isRelated (domain.tileVars.getD · 0) (honeV m'' hg₁ val hval)]

theorem balances_visit : ∀ (f id : Nat) (parent : Option Nat), Moves (Balances t tgt) (visit t f id parent)
  | 0, _, _ => Moves.pure _
  | f + 1, id, parent => by
    intro s u s' h
    refine ⟨accounts_visit (f + 1) id parent s u s' h, fun hs ha hb => ?_⟩
    rw [visit] at h
    obtain ⟨kind, s₀, hk, h₀⟩ := runs_bind.1 h
    obtain ⟨hkind, hs₀⟩ := runs_tree.1 hk
    subst s₀
    split at h₀
    · obtain ⟨-, rfl⟩ := runs_pure.1 h₀
      exact hb
    · rename_i tile
      obtain ⟨st, s₁, hget, h₁⟩ := runs_bind.1 h₀
      obtain ⟨hst, hs₁⟩ := runs_get.1 hget
      subst st s₁
      split at h₁
      swap
      · exact absurd h₁ not_runs_throw
      rename_i domain hdomain
      obtain ⟨one, s₂, hone, h₂⟩ := runs_bind.1 h₁
      obtain ⟨st', s₃, hget', h₃⟩ := runs_bind.1 h₂
      obtain ⟨hst', hs₃⟩ := runs_get.1 hget'
      subst st' s₃
      split at h₃
      swap
      · exact absurd h₃ not_runs_throw
      obtain ⟨_, s₄, hloop, h₄⟩ := runs_bind.1 h₃
      -- the tile variables are variables and `one` is the constant one, in the model of `s₂` on
      have hs₂ : Steady s s₂ := steady_const 1 _ _ _ hone
      have hone' := runs_const_one hs.built hone
      have hvars : ∀ e ∈ domain.tileVars, ∃ v, s₂.model.nodes[e]? = some (.var v) := fun e he => by
        obtain ⟨v, hv⟩ := hs.domains id domain hdomain e he
        exact ⟨v, hs₂.grows.nodes _ _ hv⟩
      have h₂₄ : BalancesFrom t tgt s₂.model s₂ s₄ := (Moves.forIn _ fun _ _ _ =>
        Moves.bind (balances_fillBuffer hkind hvars hone') fun _ => Moves.pure _) _ _ _ hloop
      have k₄ := hs₂.balances.trans (h₂₄ (Model.Grows.refl _))
      have h₄' : Balances t tgt s₄ s' := (Moves.bind (Moves.tree _) fun _ => Moves.bind (Moves.forIn _
        fun _ _ _ => Moves.bind (balances_visit f _ _) fun _ => Moves.pure _) fun _ => Moves.pure _) _ _ _ h₄
      exact (k₄.trans h₄').balanced hs ha hb
    · exact ((Moves.bind (Moves.tree _) fun _ => Moves.bind (Moves.forIn _ fun _ _ _ =>
        Moves.bind (balances_visit f _ _) fun _ => Moves.pure _) fun _ => Moves.pure _) s u s' h₀).balanced
          hs ha hb

end Writes

theorem balances_propagateWrites (t : TileTree) (tgt : Target) : Moves (Balances t tgt) t.propagateWrites :=
  Writes.balances_visit _ _ _

namespace Tiler

theorem solveTiled_balanced {tl : Tiler} {t : TileTree} {s s' : SolveState} {st : SolvedTree}
    (h : Runs (tl.solveTiled t) s st s') (hs : s.Sound) (ha : s.Accounted t tl.target) (hb : s.Balanced t) :
    s'.Balanced t := by
  obtain ⟨s₁, s₂, s₃, s₄, s₅, s₆, r, obj, sol, k₁, hcv, hpw, hpc, hobj, -, k₆, h₆⟩ := solveTiled_cases h
  have k₂ : Accounts t tl.target s s₂ := k₁.steady.accounts.trans (accounts_createVariables _ _ _ _ _ _ hcv)
  have hb₂ : s₂.Balanced t := balanceKept_createVariables _ _ _ _ _ _ hcv (hb.of_grows k₁.steady.grows k₁.tiles)
  have k₃ := balances_propagateWrites t tl.target _ _ _ hpw
  have hb₃ : s₃.Balanced t := k₃.balanced (k₂.keeps.sound hs) (k₂.accounted hs ha) hb₂
  -- capacity and the objective only grow the model; the search and the read-back only read it
  have k₅ : Steady s₃ s₅ := (runs_postCapacity hpc (k₃.accounts.keeps.sound (k₂.keeps.sound hs))).1.trans
    (steady_objective tl t _ _ _ hobj)
  have k₇ : Steady s₃ s' := k₅.trans (k₆.trans (runs_extract h₆).1).steady
  exact hb₃.of_grows k₇.grows k₇.tiles

end Tiler

/-- Write volume at the innermost create position, over every solved tree not rooted at an
operation and every evaluation of the model its search ran on, the solution's among them: a buffer
entry at a tile over `r` dimensions, created inside all `r` loops, moves its size there times its
counts along all `r` dimensions, the counts of the dimensions its access does not depend on
included. -/
theorem solve_innermost_writes {tl : Tiler} {t : TileTree} {log : Array LogRecord} {st : SolvedTree}
    (hroot : ∀ leaf, t.kind t.root ≠ .ok (.leaf leaf)) (hsolve : tl.solve t = (log, .ok st)) {val : Nat → Int}
    (hval : ((tl.solveTiled t).run.run (SolveState.new {} t.len)).2.model.Evaluation val) :
    ∀ id info, ((tl.solveTiled t).run.run (SolveState.new {} t.len)).2.memo.tile? id = some info →
      ∀ tile, t.kind id = .ok (.tile tile) → ∀ b ∈ info.buffers, ∀ (slot w : Nat), b.writes[slot]? = some w →
        b.positions[slot]? = some tile.bounds.length →
        ∃ sz, b.sizes[slot]? = some sz ∧ b.dimTrips.length = tile.bounds.length ∧
          val w = val sz * (b.dimTrips.map val).prod := by
  have hbal := Tiler.solveTiled_balanced (runs_solve_tiled hroot hsolve) (SolveState.sound_new _)
    (SolveState.accounted_new _) (SolveState.balanced_new _)
  intro id info hinfo tile hkind b hb slot w hw hpos
  obtain ⟨sz, hsz, hlen, hden⟩ := hbal id info hinfo tile hkind b hb slot w hw hpos
  exact ⟨sz, hsz, hlen, hden _ (Model.Grows.refl _) val hval⟩

def fusedValues (i : Nat) : Int :=
  [2, 1, 2, 1, 2, 2, 4, 1, 1, 4, 1, 2, 1, 2, 4, 4, 1, 1, 4, 1, 4, 2, 1, 0, 4, 1, 0, 4, 1, 8, 8, 2, 2, 8, 2, 2,
    8, 2, 2, 8, 4, 4, 8, 16, 0, 0, 0, 32, 4, 4, 8, 4, 4, 4, 4, 16, 8, 0, 8, 0, 8, 8, 8, 40].getD i 0

theorem fusedTree_innermost_writes :
    (∀ leaf, fusedTree.kind fusedTree.root ≠ .ok (.leaf leaf)) ∧
    fusedTiler.solve fusedTree = ((fusedTiler.solve fusedTree).1, .ok fusedSolved) ∧
    ((fusedTiler.solveTiled fusedTree).run.run (SolveState.new {} fusedTree.len)).2.model.Evaluation fusedValues ∧
    ∀ id info, ((fusedTiler.solveTiled fusedTree).run.run (SolveState.new {} fusedTree.len)).2.memo.tile? id =
      some info → ∀ tile, fusedTree.kind id = .ok (.tile tile) → ∀ b ∈ info.buffers, ∀ (slot w : Nat),
        b.writes[slot]? = some w → b.positions[slot]? = some tile.bounds.length →
        ∃ sz, b.sizes[slot]? = some sz ∧ b.dimTrips.length = tile.bounds.length ∧
          fusedValues w = fusedValues sz * (b.dimTrips.map fusedValues).prod := by
  have hval : ((fusedTiler.solveTiled fusedTree).run.run (SolveState.new {} fusedTree.len)).2.model.Evaluation
      fusedValues := by
    rw [fusedTree_model]
    decide +kernel
  exact ⟨fusedTree_root_tile, fusedTree_solve, hval,
    solve_innermost_writes fusedTree_root_tile fusedTree_solve hval⟩

/-- A producer over a 4×4 domain that writes it whole and reads a row along its second
dimension. -/
def diagonalProducer : OpNode :=
  { name := "p"
    domainBounds := [4, 4]
    reads := [⟨⟨2, 0, [AffineRange.dim 1 2 0]⟩, 4, none⟩]
    write := ⟨AffineMap.identity 2, 4⟩
    kernel := .other }

def diagonalConsumer : OpNode :=
  { name := "c"
    domainBounds := [4]
    reads := [⟨⟨1, 0, [AffineRange.dim 0 1 0, AffineRange.dim 0 1 0]⟩, 4, some 0⟩]
    write := ⟨AffineMap.identity 1, 4⟩
    kernel := .other }

def diagonalPair : Dataflow := ((Dataflow.add { name := "g" } diagonalProducer).1.add diagonalConsumer).1

def diagonalTiler : Tiler :=
  { dataflow := diagonalPair, target := { levels := [⟨"L1", some 32, 1⟩, ⟨"DDR", none, 2⟩] } }

/-- The consumer's tree once it has taken the producer's in at level two: the producer's tile
maps both its dimensions to the consumer's one. -/
def diagonalTree : TileTree :=
  let t := TileTree.new (.tile ⟨2, 1, .identity 1, [4]⟩)
  let (t, a) := t.addChild 0 (.tile ⟨1, 0, ⟨1, 0, [.dim 0 1 0, .dim 0 1 0]⟩, [4, 4]⟩)
  let (t, b) := t.addChild 0 (.tile ⟨1, 1, .identity 1, [4]⟩)
  let (t, _) := t.addChild b (.leaf ⟨1, .identity 1, [4]⟩)
  (t.addChild a (.leaf ⟨0, .identity 2, [4, 4]⟩)).1

/-- Values of the diagonal tree's model, node by node: those of the solution its search returns,
tiles of two everywhere above the leaves. -/
def diagonalValues (i : Nat) : Int :=
  [2, 2, 2, 4, 4, 1, 1, 4, 4, 4, 4, 1, 4, 2, 2, 2, 0, 8, 1, 4, 0, 2, 8, 1, 1, 4, 2, 4, 1, 4, 1, 4,
    4, 2, 1, 1, 4, 1, 4, 4, 0, 0, 16, 1, 0, 8, 0, 0, 16, 64, 1, 0, 4, 16, 0, 0, 16, 1, 0, 8, 1, 16,
    32, 16, 4, 4, 32, 8, 32, 4, 4, 4, 8, 64, 16, 64, 4, 4, 16, 4, 4, 16, 0, 8, 0, 16, 24, 32, 0, 8,
    0, 16, 0, 8, 32, 0, 16, 0, 8, 24, 0, 4, 0, 4, 0, 8, 0, 16, 32, 4, 4, 0, 16, 0, 8, 32, 0, 0, 16,
    0, 0, 0, 32, 0, 0, 0, 16, 0, 0, 32, 0, 64, 16, 16, 192].getD i 0

/-- Counting only the dimensions an access relates undercounts the innermost volume. In the
merged diagonal tree the producer's first buffer at the producer's tile is created inside both
loops, and under a solution of the model it moves 32 bytes; its element bytes times its shape
times its counts along the one dimension its access relates make 16, the count of the other
dimension, inherited from the consumer's tile, being left out. -/
theorem diagonal_innermost_writes_undercount :
    (TileGraph.new diagonalPair 2 >>= (·.merge ⟨0, 1, 2⟩) >>= (·.extractTree 7)).toOption = some diagonalTree ∧
    diagonalTree.kind 1 = .ok (.tile ⟨1, 0, ⟨1, 0, [.dim 0 1 0, .dim 0 1 0]⟩, [4, 4]⟩) ∧
    ((diagonalTiler.buildModel diagonalTree).run.run (SolveState.new {} diagonalTree.len)).2.model.Satisfies
      diagonalValues ∧
    ∃ info ∈ ((diagonalTiler.buildModel diagonalTree).run.run (SolveState.new {} diagonalTree.len)).2.memo.tile? 1,
      ∃ b ∈ info.buffers, b.positions[1]? = some 2 ∧ b.writes[1]? = some 68 ∧ diagonalValues 68 = 32 ∧
        b.elemBytes * ((b.shapes.getD 1 []).map diagonalValues).prod *
          (((List.range 2).filter b.mask.isRelated).map fun k => diagonalValues (b.dimTrips.getD k 0)).prod = 16 := by
  decide +kernel

end TileSched
