import TileSched.Proofs.Schedule.Held
/-! The capacity pass. For every tile, buffer there and bounded level below the tile's, the pass
posts that the bytes of the buffers live together with the buffer, at the tile and at the tiles
above it, fit the level's capacity, capped at the word range. A buffer set is posted once per
level; a later buffer with the same set finds its constraint posted. -/

namespace TileSched

open Solving


theorem getD_of_mem_zipIdx {α : Type} [Inhabited α] {l : List α} {x : α × Nat} (h : x ∈ l.zipIdx) :
    l.getD x.2 default = x.1 := by
  rw [List.getD_eq_getElem?_getD, List.mem_zipIdx_iff_getElem?.1 h, Option.getD_some]

theorem map_getD_filter_zipIdx {α : Type} [Inhabited α] (l : List α) (p : α → Bool) :
    ((l.zipIdx.filter fun x => p x.1).map (·.2)).map (l.getD · default) = l.filter p := by
  have hpick : ∀ x ∈ l.zipIdx.filter (fun x => p x.1), l.getD x.2 default = x.1 :=
    fun x hx => getD_of_mem_zipIdx (List.mem_of_mem_filter hx)
  simp only [List.map_map, Function.comp_def]
  rw [List.map_congr_left hpick]
  conv => rhs; rw [← List.zipIdx_map_fst 0 l]
  rw [List.filter_map]
  rfl

namespace TileInfo

/-- The buffers live together with `b` at a tile: the entries of the tile and of the enclosing
tiles whose lifetimes overlap `b`'s. -/
def liveWith (info : TileInfo) (ancs : List TileInfo) (b : TileBuffer) : List TileBuffer :=
  (info :: ancs).flatMap fun t => t.buffers.filter (·.lifetime.overlaps b.lifetime)

/-- The buffers of a capacity key: entries of the tile by index, then entries of enclosing tiles by
tile and index. -/
def keyed (info : TileInfo) (ancs : List TileInfo) (ov : List Nat) (out : List (Nat × Nat)) :
    List TileBuffer :=
  ov.map (info.buffers.getD · default) ++ out.map fun (a, i) => (ancs.getD a default).buffers.getD i default

theorem keyed_eq_liveWith (info : TileInfo) (ancs : List TileInfo) (b : TileBuffer) :
    info.keyed ancs ((info.buffers.zipIdx.filter fun x => x.1.lifetime.overlaps b.lifetime).map (·.2))
      (ancs.zipIdx.flatMap fun (anc, a) =>
        (anc.buffers.zipIdx.filter fun x => x.1.lifetime.overlaps b.lifetime).map fun (_, i) => (a, i)) =
      info.liveWith ancs b := by
  rw [keyed, liveWith, List.flatMap_cons, map_getD_filter_zipIdx info.buffers (·.lifetime.overlaps b.lifetime),
    List.map_flatMap]
  congr 1
  conv => rhs; rw [← List.zipIdx_map_fst 0 ancs, List.flatMap_map]
  refine List.flatMap_congr fun ⟨anc, a⟩ hx => ?_
  have hanc : ancs.getD a default = anc := getD_of_mem_zipIdx hx
  rw [List.map_map, ← map_getD_filter_zipIdx anc.buffers, List.map_map]
  simp only [Function.comp_def, hanc]

end TileInfo

theorem SolveMemo.mem_tileNodes {mm : SolveMemo} {i : Nat} {info : TileInfo} :
    (i, info) ∈ mm.tileNodes ↔ mm.tile? i = some info := by
  simp only [SolveMemo.tileNodes, List.mem_filterMap, List.mem_zipIdx_iff_getElem?, SolveMemo.tile?,
    Array.getD_eq_getD_getElem?, Array.getElem?_toList]
  constructor
  · rintro ⟨⟨o, j⟩, hj, ho⟩
    cases o with
    | none => cases ho
    | some info' =>
      simp only [Option.map_some, Option.some.injEq, Prod.mk.injEq] at ho
      obtain ⟨rfl, rfl⟩ := ho
      simp [hj]
  · intro h
    cases hi : mm.tiles[i]? with
    | none => rw [hi] at h; cases h
    | some o =>
      rw [hi, Option.getD_some] at h
      exact ⟨⟨o, i⟩, hi, by simp [h]⟩

namespace Model

def CapacityPosted (m : Model) (sl c : Nat) (held : List TileBuffer) : Prop :=
  (∀ b ∈ held, b.Reaches sl) ∧ ∃ used cap, Constraint.lessEqual used cap ∈ m.constraints ∧
    m.Denotes used (fun val => (held.map (·.heldAt val sl)).sum) ∧
    m.Denotes cap fun _ => Int.ofNat (min c I64.max.toNat)

variable {m m' : Model} {sl c : Nat} {held : List TileBuffer}

theorem CapacityPosted.grows (h : m.CapacityPosted sl c held) (hg : m.Grows m') :
    m'.CapacityPosted sl c held := by
  obtain ⟨hr, used, cap, hc, hu, hcap⟩ := h
  exact ⟨hr, used, cap, hg.constraints _ hc, hu.grows hg, hcap.grows hg⟩

theorem CapacityPosted.le (h : m.CapacityPosted sl c held) {val : Nat → Int} (hval : m.Assigns val) :
    (held.map (·.heldAt val sl)).sum ≤ Int.ofNat (min c I64.max.toNat) := by
  obtain ⟨-, used, cap, hc, hu, hcap⟩ := h
  have hle : val used ≤ val cap := hval.posted _ hc
  rwa [hu m (Grows.refl m) val hval.toEvaluation, hcap m (Grows.refl m) val hval.toEvaluation] at hle

end Model

theorem SolveMemo.tile?_congr {mm mm' : SolveMemo} (h : mm'.tiles = mm.tiles) : mm'.tile? = mm.tile? := by
  funext i
  simp [SolveMemo.tile?, h]

theorem runs_postBound {β : Type} {sl c : Nat} {held : List TileBuffer} {x y : β} {t t' : SolveState}
    (h : Runs (do
      let terms ← Tiler.heldTerms sl held
      let used ← sum terms
      let cap ← const (Int.ofNat (min c I64.max.toNat))
      post fun m => m.addLessEqual used cap
      pure x) t y t')
    (hb : t.model.Built) (hp : ∀ b ∈ held, b.Placed t.model) :
    y = x ∧ Steady t t' ∧ t'.model.CapacityPosted sl c held := by
  obtain ⟨terms, t₁, hterms, h₁⟩ := runs_bind.1 h
  obtain ⟨used, t₂, hused, h₂⟩ := runs_bind.1 h₁
  obtain ⟨cap, t₃, hcap, h₃⟩ := runs_bind.1 h₂
  obtain ⟨_, t₄, hpost, h₄⟩ := runs_bind.1 h₃
  obtain ⟨rfl, rfl⟩ := runs_pure.1 h₄
  obtain ⟨hst, hheld⟩ := runs_heldTerms sl hterms
  obtain ⟨hreach, hsum⟩ := hheld hb hp
  have hst₂ := steady_sum terms _ _ _ hused
  have hst₃ := steady_const _ _ _ _ hcap
  have hst₄ := steady_addLessEqual used cap _ _ _ hpost
  obtain ⟨rfl, rfl⟩ := runs_build.1 hused
  obtain ⟨rfl, rfl⟩ := runs_build.1 hcap
  obtain rfl := runs_post.1 hpost
  have hcn := (hst.built hb).constantsNamed
  -- the sum node denotes the held bytes, the constant the capped capacity
  have hu := Model.SumsTo.sum hcn hsum
  have hc := Model.Denotes.constant (hst₂.built (hst.built hb)).constantsNamed (Int.ofNat (min c I64.max.toNat))
  refine ⟨rfl, hst.trans (hst₂.trans (hst₃.trans hst₄)), hreach, _, _, Array.mem_push_self, ?_, ?_⟩
  · exact hu.grows (hst₃.grows.trans hst₄.grows)
  · exact hc.grows hst₄.grows

theorem SolveState.Sound.placed_liveWith {s : SolveState} (hs : s.Sound) {id : Nat} {info : TileInfo}
    (hinfo : s.memo.tile? id = some info) (al : List Nat) {b b' : TileBuffer}
    (hb' : b' ∈ info.liveWith (al.filterMap s.memo.tile?) b) : b'.Placed s.model := by
  obtain ⟨T, hT, hb'⟩ := List.mem_flatMap.1 hb'
  have hb'' := List.mem_of_mem_filter hb'
  rcases List.mem_cons.1 hT with rfl | hT
  · exact hs.placed id T hinfo b' hb''
  · obtain ⟨a, -, ha⟩ := List.mem_filterMap.1 hT
    exact hs.placed a T ha b' hb''

theorem runs_postCapacity {tl : Tiler} {t : TileTree} {s s' : SolveState} {u : Unit}
    (h : Runs (tl.postCapacity t) s u s') (hs : s.Sound) : Steady s s' ∧
      ∀ id info, s.memo.tile? id = some info → ∀ lvl, t.level id = .ok lvl →
        ∀ q l, t.parent id = .ok q → t.UpChain q l →
        ∀ b ∈ info.buffers, ∀ sl < lvl, ∀ c, tl.target.capacity sl = some c →
          s'.model.CapacityPosted sl c (info.liveWith (l.filterMap s.memo.tile?) b) := by
  unfold Tiler.postCapacity at h
  obtain ⟨st, t₀, hget, h₁⟩ := runs_bind.1 h
  obtain ⟨hst, ht₀⟩ := runs_get.1 hget
  subst st t₀
  obtain ⟨_, t₁, hloop, hdone⟩ := runs_bind.1 h₁
  obtain ⟨-, rfl⟩ := runs_pure.1 hdone
  clear h h₁ hget
  -- over the tiles: each tile handled has its constraints, for its parent chain
  have key := runs_forIn_inv (J := fun done _ t' => Steady s t' ∧ ∀ x ∈ done, ∀ lvl, t.level x.1 = .ok lvl →
      ∀ q l, t.parent x.1 = .ok q → t.UpChain q l → ∀ b ∈ (x : Nat × TileInfo).2.buffers, ∀ sl < lvl, ∀ c,
        tl.target.capacity sl = some c → t'.model.CapacityPosted sl c (x.2.liveWith (l.filterMap s.memo.tile?) b))
    [] ?tile ⟨Steady.refl s, fun _ hx => absurd hx List.not_mem_nil⟩ hloop
  case tile =>
    rintro ⟨id, info⟩ hx done _ t₂ r t₃ ⟨hst, hdone⟩ hrun
    clear hloop
    have hinfo := SolveMemo.mem_tileNodes.1 hx
    obtain ⟨lvl, t₂', hl, hrun₁⟩ := runs_bind.1 hrun
    obtain ⟨hlvl, ht⟩ := runs_tree.1 hl
    subst t₂'
    obtain ⟨st₂, t₂', hg, hrun₂⟩ := runs_bind.1 hrun₁
    obtain ⟨hst₂, ht⟩ := runs_get.1 hg
    subst st₂ t₂'
    obtain ⟨q, t₂', hq, hrun₃⟩ := runs_bind.1 hrun₂
    obtain ⟨hpar, ht⟩ := runs_tree.1 hq
    subst t₂'
    obtain ⟨al, t₂', ha, hrun₄⟩ := runs_bind.1 hrun₃
    obtain ⟨ht, hal⟩ := runs_ancestors t _ ha
    subst t₂'
    obtain ⟨posted, t₄, hmid, hrun₅⟩ := runs_bind.1 hrun₄
    obtain ⟨rfl, rfl⟩ := runs_pure.1 hrun₅
    clear hrun hrun₁ hrun₂ hrun₃ hrun₄ hl hg hq ha
    rw [SolveMemo.tile?_congr hst.tiles] at hmid
    -- over the tile's buffers: every key posted names its constraint, and every buffer handled
    -- has one at each bounded level below the tile's
    have hmid' := runs_forIn_inv (J := fun done posted t' => Steady t₂ t' ∧
        (∀ key ∈ posted, ∀ c, tl.target.capacity key.1 = some c →
          t'.model.CapacityPosted key.1 c (info.keyed (al.filterMap s.memo.tile?) key.2.1 key.2.2)) ∧
        ∀ b ∈ done, ∀ sl < lvl, ∀ c, tl.target.capacity sl = some c →
          t'.model.CapacityPosted sl c (info.liveWith (al.filterMap s.memo.tile?) b))
      [] ?buffer ⟨Steady.refl t₂, fun _ hk => absurd hk List.not_mem_nil,
        fun _ hb => absurd hb List.not_mem_nil⟩ hmid
    case buffer =>
      rintro b hb done₂ posted t₅ r t₆ ⟨hst₅, hkeys, hprev⟩ hrun
      clear hmid
      dsimp only at hrun
      obtain ⟨posted', t₇, hinner, hrun₁⟩ := runs_bind.1 hrun
      obtain ⟨rfl, rfl⟩ := runs_pure.1 hrun₁
      -- the buffers a key of this buffer names are those live with it, all placed
      have hplaced : ∀ b' ∈ info.keyed (al.filterMap s.memo.tile?)
          ((info.buffers.zipIdx.filter fun x => x.1.lifetime.overlaps b.lifetime).map (·.2))
          ((al.filterMap s.memo.tile?).zipIdx.flatMap fun (anc, a) =>
            (anc.buffers.zipIdx.filter fun x => x.1.lifetime.overlaps b.lifetime).map fun (_, i) => (a, i)),
          b'.Placed s.model := by
        rw [TileInfo.keyed_eq_liveWith]
        exact fun b' hb' => hs.placed_liveWith hinfo al hb'
      -- over the levels below the tile's
      have hinner' := runs_forIn_inv (J := fun done posted t' => Steady t₅ t' ∧
          (∀ key ∈ posted, ∀ c, tl.target.capacity key.1 = some c →
            t'.model.CapacityPosted key.1 c (info.keyed (al.filterMap s.memo.tile?) key.2.1 key.2.2)) ∧
          ∀ sl ∈ done, ∀ c, tl.target.capacity sl = some c →
            t'.model.CapacityPosted sl c (info.liveWith (al.filterMap s.memo.tile?) b))
        [] ?level ⟨Steady.refl t₅, hkeys, fun _ hsl => absurd hsl List.not_mem_nil⟩ hinner
      case level =>
        rintro sl - done₃ posted t₈ r t₉ ⟨hst₈, hkeys₈, hprev₈⟩ hrun
        clear hinner
        have hold : ∀ sl' ∈ done₃, ∀ c, tl.target.capacity sl' = some c → ∀ t', Steady t₈ t' →
            t'.model.CapacityPosted sl' c (info.liveWith (al.filterMap s.memo.tile?) b) :=
          fun sl' hsl' c hc t' hst' => (hprev₈ sl' hsl' c hc).grows hst'.grows
        split at hrun
        · rename_i c hc
          split at hrun
          · -- a key already posted covers this level
            obtain ⟨rfl, rfl⟩ := runs_pure.1 hrun
            refine ⟨posted, rfl, hst₈, hkeys₈, fun sl' hsl' c' hc' => ?_⟩
            rcases List.mem_append.1 hsl' with hsl' | hsl'
            · exact hprev₈ sl' hsl' c' hc'
            · obtain rfl := List.mem_singleton.1 hsl'
              rw [← TileInfo.keyed_eq_liveWith]
              exact hkeys₈ _ (List.contains_iff_mem.1 ‹_›) c' hc'
          · -- a new key: its constraint is posted now
            have hbuilt := (hst.trans (hst₅.trans hst₈)).built hs.built
            obtain ⟨rfl, hst₉, hcap⟩ := runs_postBound hrun hbuilt fun b' hb' =>
              (hplaced b' hb').grows (hst.trans (hst₅.trans hst₈)).grows
            refine ⟨_, rfl, hst₈.trans hst₉, fun key hkey c' hc' => ?_, fun sl' hsl' c' hc' => ?_⟩
            · rcases List.mem_append.1 hkey with hkey | hkey
              · exact (hkeys₈ key hkey c' hc').grows hst₉.grows
              · obtain rfl := List.mem_singleton.1 hkey
                rw [hc] at hc'
                cases hc'
                exact hcap
            · rcases List.mem_append.1 hsl' with hsl' | hsl'
              · exact hold sl' hsl' c' hc' _ hst₉
              · obtain rfl := List.mem_singleton.1 hsl'
                rw [hc] at hc'
                cases hc'
                rw [← TileInfo.keyed_eq_liveWith]
                exact hcap
        · -- an unbounded level takes no constraint
          obtain ⟨rfl, rfl⟩ := runs_pure.1 hrun
          refine ⟨posted, rfl, hst₈, hkeys₈, fun sl' hsl' c' hc' => ?_⟩
          rcases List.mem_append.1 hsl' with hsl' | hsl'
          · exact hprev₈ sl' hsl' c' hc'
          · obtain rfl := List.mem_singleton.1 hsl'
            exact absurd hc' (‹∀ c, tl.target.capacity sl' = some c → False› c')
      obtain ⟨hst₇, hkeys₇, hlevels⟩ := hinner'
      refine ⟨_, rfl, hst₅.trans hst₇, hkeys₇, fun b' hb' sl hsl c hc => ?_⟩
      rcases List.mem_append.1 hb' with hb' | hb'
      · exact (hprev b' hb' sl hsl c hc).grows hst₇.grows
      · obtain rfl := List.mem_singleton.1 hb'
        exact hlevels sl (by simpa using hsl) c hc
    obtain ⟨hst₄, -, hbufs⟩ := hmid'
    refine ⟨PUnit.unit, rfl, hst.trans hst₄, fun x hx' lvl' hlvl' q' l hq' hl b hb sl hsl c hc => ?_⟩
    rcases List.mem_append.1 hx' with hx' | hx'
    · exact (hdone x hx' lvl' hlvl' q' l hq' hl b hb sl hsl c hc).grows hst₄.grows
    · obtain rfl := List.mem_singleton.1 hx'
      rw [hlvl] at hlvl'
      cases hlvl'
      rw [hpar] at hq'
      cases hq'
      -- the walk up returns the whole parent chain: it is no longer than the tree
      have hlen : l.length ≤ t.fuel := by
        have := hl.length_le
        simp only [TileTree.fuel, TileTree.len] at *
        omega
      rw [← hal l hl hlen]
      exact hbufs b (by simpa using hb) sl hsl c hc
  obtain ⟨hst, hcap⟩ := key
  refine ⟨hst, fun id info hinfo lvl hlvl q l hq hl b hb sl hsl c hc => ?_⟩
  exact hcap (id, info) (by simpa using SolveMemo.mem_tileNodes.2 hinfo) lvl hlvl q l hq hl b hb sl hsl c hc
end TileSched
