import Mathlib
import TileSched.Proofs.Fusion.Candidates
import TileSched.Proofs.Tree.Extract
import TileSched.Schedule.Init
/-! Tile forests reached by merges, read through the table's own walks. The nodes reachable from
the root are listed once each by the preorder walk, and their parent and child links agree; the
operation leaves are the operations in order; the root is a scope over tiles of the top level,
and levels fall strictly from every tile to its children, so the level check accepts every top
tree extracted from the forest. Every merge that succeeds removes exactly one tile node. -/

namespace TileSched

theorem forIn_yield_eq_ok {ε α : Type} {f : α → PUnit → Except ε (ForInStep PUnit)} :
    ∀ {xs : List α}, (∀ x ∈ xs, f x () = .ok (.yield ())) → forIn xs () f = .ok ()
  | [], _ => rfl
  | x :: xs, hf => by
    rw [List.forIn_cons, hf x List.mem_cons_self]
    exact forIn_yield_eq_ok fun y hy => hf y (List.mem_cons_of_mem x hy)

theorem liftFault_ok {α : Type} (a : α) : liftFault (.ok a : Except Fault α) = pure a := rfl

namespace Subtree

theorem Copy.tiled {C T : Subtree} (h : C.Copy T) {L : Nat} (ht : C.Tiled L) : T.Tiled L := by
  induction ht generalizing T with
  | @tile L i n cs hpos hlt hcs ih =>
    cases h with
    | node hds => exact .tile hpos hlt (Copy.forall_mem hds fun c hc T hT => ih c hc hT)
  | leaf =>
    cases h with
    | node hds =>
      cases hds
      exact .leaf

end Subtree

namespace TileTree

variable {t : TileTree}

theorem level_of_tile {j : Nat} {n : TileNode} (h : t.kind j = .ok (.tile n)) : t.level j = .ok n.level := by
  simp [TileTree.level, TileTree.fuel, TileTree.levelAux, h, bind, Except.bind, pure, Except.pure]

theorem level_of_leaf {j : Nat} {o : OpLeaf} (h : t.kind j = .ok (.leaf o)) : t.level j = .ok 0 := by
  simp [TileTree.level, TileTree.fuel, TileTree.levelAux, h, bind, Except.bind, pure, Except.pure]

theorem Realizes.levels_of_tiled {Q : Subtree} {L : Nat} (h : t.Realizes Q) (hQ : Q.Tiled L) {n : TileNode}
    (hn : Q.kind = .tile n) :
    0 < n.level ∧ n.level < L ∧
      ∃ cs, t.children Q.id = .ok cs ∧ ∀ c ∈ cs, ∃ l, t.level c = .ok l ∧ l < n.level := by
  obtain ⟨hpos, hlt, hcs⟩ := hQ.levels (Subtree.self_mem_subs Q) hn
  refine ⟨hpos, hlt, _, h.children_eq, fun j hj => ?_⟩
  obtain ⟨c, hc, rfl⟩ := List.mem_map.1 hj
  have hk := (h.child hc).1.kind_eq
  -- a child is a tile of a lower level or a leaf
  cases hcs c hc with
  | tile _ hlt' _ => exact ⟨_, level_of_tile hk, hlt'⟩
  | leaf => exact ⟨0, level_of_leaf hk, hpos⟩

theorem checkLevels_of_tiled {T : Subtree} {L : Nat} (h : t.Realizes T) (hnd : T.ids.Nodup)
    (hroot : T.id = t.root) (hT : T.Tiled L) : t.checkLevels = .ok () := by
  rw [TileTree.checkLevels, ← hroot, h.preorder_eq hnd, liftFault_ok, pure_bind, forIn_yield_eq_ok]
  · rfl
  intro j hj
  obtain ⟨Q, hQ, rfl⟩ := List.mem_map.1 hj
  have hk := h.kind_of_mem hQ
  cases hkind : Q.kind with
  | tile n =>
    obtain ⟨hpos, -, cs, hcs, hlt⟩ := (h.sub hQ).levels_of_tiled (hT.of_mem_subs hQ) hkind
    simp only [hk, hkind, hcs, liftFault_ok, pure_bind, Nat.pos_iff_ne_zero.1 hpos, if_false]
    rw [forIn_yield_eq_ok]
    · rfl
    intro c hc
    obtain ⟨l, hl, hlt⟩ := hlt c hc
    simp only [hl, liftFault_ok, pure_bind, ge_iff_le, Nat.not_le.2 hlt, if_false]
    rfl
  | scope | leaf _ =>
    simp only [hk, hkind, liftFault_ok, pure_bind]
    rfl

/-! The forest through the walks. -/

/-- A tile forest of top level `top` over `nOps` operations, as the table's walks read it, with
`ps` the nodes reachable from the root in preorder: each is listed once, every child of one of
them is one of them and has it as its parent, and every parent link among them is a child link. -/
structure Wellformed (t : TileTree) (top nOps : Nat) (ps : List Nat) : Prop where
  preorder : t.preorder t.root = .ok ps
  nodup : ps.Nodup
  root_parent : t.parent t.root = .ok none
  children : ∀ i ∈ ps, ∃ cs, t.children i = .ok cs ∧ ∀ j ∈ cs, j ∈ ps ∧ t.parent j = .ok (some i)
  parent : ∀ j ∈ ps, ∀ i, t.parent j = .ok (some i) → i ∈ ps ∧ ∃ cs, t.children i = .ok cs ∧ j ∈ cs
  leaves : ∃ ls, t.opLeaves t.root = .ok ls ∧ ls.map Prod.fst = List.range nOps
  root_scope : t.kind t.root = .ok .scope
  tops : ∃ cs, t.children t.root = .ok cs ∧ ∀ c ∈ cs, ∃ n, t.kind c = .ok (.tile n) ∧ n.level = top
  levels : ∀ i ∈ ps, ∀ n, t.kind i = .ok (.tile n) → 0 < n.level ∧ n.level ≤ top ∧
    ∃ cs, t.children i = .ok cs ∧ ∀ c ∈ cs, ∃ l, t.level c = .ok l ∧ l < n.level

def reachableTiles (t : TileTree) : Except Fault Nat := do
  let ks ← (← t.preorder t.root).mapM t.kind
  return (ks.filter NodeKind.isTile).length

namespace Forest

variable {top : Nat} {S : Subtree}

theorem tiled_of_tile (hF : t.Forest top S) {Q : Subtree} (hQ : Q ∈ S.subs) {n : TileNode}
    (hn : Q.kind = .tile n) : Q.Tiled (top + 1) := by
  have hne : Q ≠ S := fun h => by
    rw [h, hF.scope] at hn
    nomatch hn
  obtain ⟨c, hc, hQc⟩ := Subtree.mem_subs_child hQ hne
  exact (hF.tops c hc).2.of_mem_subs hQc

theorem wellformed {nOps : Nat} (hF : t.Forest top S) (hl : S.leaves.map Prod.fst = List.range nOps) :
    t.Wellformed top nOps S.ids where
  preorder := hF.root ▸ hF.realizes.preorder_eq hF.nodup
  nodup := hF.nodup
  root_parent := hF.parent_root
  children := by
    intro i hi
    obtain ⟨Q, hQ, rfl⟩ := List.mem_map.1 hi
    refine ⟨_, (hF.realizes.sub hQ).children_eq, fun j hj => ?_⟩
    obtain ⟨c, hc, rfl⟩ := List.mem_map.1 hj
    exact ⟨List.mem_map_of_mem (Subtree.subs_trans hQ (Subtree.mem_subs_of_mem_children hc)),
      (hF.realizes.sub hQ).parent_eq hc⟩
  parent := by
    intro j hj i hi
    obtain ⟨Q, hQ, rfl⟩ := List.mem_map.1 hj
    -- the root has no parent, so `Q` lies below it
    have hne : Q ≠ S := fun h => by
      rw [h, hF.root, hF.parent_root] at hi
      nomatch hi
    obtain ⟨P, hP, rfl, hQP⟩ := hF.realizes.parent_eq_some hQ hne hi
    exact ⟨List.mem_map_of_mem hP, _, (hF.realizes.sub hP).children_eq, List.mem_map_of_mem hQP⟩
  leaves := ⟨S.leaves, hF.root ▸ hF.realizes.opLeaves_eq hF.nodup, hl⟩
  root_scope := by rw [← hF.root, hF.realizes.kind_eq, hF.scope]
  tops := by
    refine ⟨_, hF.root ▸ hF.realizes.children_eq, fun j hj => ?_⟩
    obtain ⟨c, hc, rfl⟩ := List.mem_map.1 hj
    obtain ⟨n, hn, hlevel⟩ := (hF.tops c hc).1
    exact ⟨n, hn ▸ hF.realizes.kind_of_mem (Subtree.mem_subs_of_mem_children hc), hlevel⟩
  levels := by
    intro i hi n hn
    obtain ⟨Q, hQ, rfl⟩ := List.mem_map.1 hi
    have hQn : Q.kind = .tile n := by
      rw [hF.realizes.kind_of_mem hQ] at hn
      exact Except.ok.inj hn
    obtain ⟨hpos, hlt, hcs⟩ := (hF.realizes.sub hQ).levels_of_tiled (hF.tiled_of_tile hQ hQn) hQn
    exact ⟨hpos, Nat.le_of_lt_succ hlt, hcs⟩

theorem reachableTiles_eq (hF : t.Forest top S) : t.reachableTiles = .ok S.tileCount := by
  have hkinds : S.ids.mapM t.kind = .ok (S.subs.map Subtree.kind) := by
    rw [Subtree.ids, List.mapM_map]
    exact mapM_eq_ok_map fun Q hQ => hF.realizes.kind_of_mem hQ
  rw [reachableTiles, ← hF.root, hF.realizes.preorder_eq hF.nodup]
  change (S.ids.mapM t.kind >>= fun ks => pure (ks.filter NodeKind.isTile).length) = _
  rw [hkinds, Subtree.tileCount, List.filter_map, List.length_map]
  change Except.ok ((S.subs.map Subtree.kind).filter NodeKind.isTile).length = _
  rw [List.filter_map, List.length_map]
  rfl

theorem extract_checkLevels (hF : t.Forest top S) {C : Subtree} (hC : C ∈ S.children) :
    ∃ e, t.extract C.id = .ok e ∧ e.checkLevels = .ok () := by
  have hCS := Subtree.mem_subs_of_mem_children hC
  obtain ⟨e, T, hext, hcopy, hT, hroot, -, hnd⟩ :=
    extract_copy (hF.realizes.sub hCS) (Subtree.nodup_of_mem_subs hF.nodup hCS)
  exact ⟨e, hext, checkLevels_of_tiled hT hnd hroot (hcopy.tiled (hF.tops C hC).2)⟩

end Forest

end TileTree

namespace TileGraph

variable {g : Dataflow} {top : Nat} {tg₀ tg : TileGraph} {mps : List MergePoint}

/-- Tile forests stay well formed under merges. In every graph reached from the initial one by
successful merges, the nodes reachable from the root form a tree whose parent and child links
agree; the operation leaves are the operations in order, each once; the root is a scope over tiles
of the top level, every tile has a level between one and the top and its children lie strictly
below it, so every extracted top tree passes the level check; and each further merge that
succeeds removes exactly one reachable tile node. -/
theorem reachable_wellFormed (hnew : TileGraph.new g top = .ok tg₀)
    (hrun : mps.foldlM TileGraph.merge tg₀ = .ok tg) :
    (∃ ps, tg.tree.Wellformed top g.ops.length ps) ∧
      (∃ roots, tg.topTrees = .ok roots ∧
        ∀ c ∈ roots, ∃ e, tg.extractTree c = .ok e ∧ e.checkLevels = .ok ()) ∧
      ∀ mp tg', tg.merge mp = .ok tg' →
        ∃ n, tg.tree.reachableTiles = .ok (n + 1) ∧ tg'.tree.reachableTiles = .ok n := by
  obtain ⟨hg, htop, S, hF, hl⟩ := reachable_forest hnew hrun
  refine ⟨⟨S.ids, hF.wellformed hl⟩, ⟨S.children.map Subtree.id, ?_, fun j hj => ?_⟩, fun mp tg' h => ?_⟩
  · rw [topTrees, ← hF.root, hF.realizes.children_eq, liftFault_ok]
    rfl
  · obtain ⟨C, hC, rfl⟩ := List.mem_map.1 hj
    obtain ⟨e, hext, hcheck⟩ := hF.extract_checkLevels hC
    exact ⟨e, by rw [extractTree, hext, liftFault_ok]; rfl, hcheck⟩
  · -- the merge edits the tree of a well-formed forest, leaving one tile fewer
    obtain ⟨t', hrun', rfl⟩ := merge_eq_ok h
    obtain ⟨S', hF', -, hcount⟩ := MergePoint.apply_forest hF hrun'
    exact ⟨S'.tileCount, hcount ▸ hF.reachableTiles_eq, hF'.reachableTiles_eq⟩

end TileGraph

/-- After merging the first two operations of `threeChain` at the top level, the forest is well
formed, its top trees pass the level check, and a further merge would remove one tile. -/
theorem threeChain_merged_wellFormed :
    TileGraph.new threeChain 3 = .ok ⟨threeChain, threeChainForest, 3⟩ ∧
      [⟨0, 1, 3⟩].foldlM TileGraph.merge ⟨threeChain, threeChainForest, 3⟩ =
        .ok ⟨threeChain, threeChainMerged, 3⟩ ∧
      (∃ ps, threeChainMerged.Wellformed 3 threeChain.ops.length ps) ∧
      (∃ roots, (TileGraph.mk threeChain threeChainMerged 3).topTrees = .ok roots ∧
        ∀ c ∈ roots, ∃ e, (TileGraph.mk threeChain threeChainMerged 3).extractTree c = .ok e ∧
          e.checkLevels = .ok ()) ∧
      ∀ mp tg', (TileGraph.mk threeChain threeChainMerged 3).merge mp = .ok tg' →
        ∃ n, threeChainMerged.reachableTiles = .ok (n + 1) ∧ tg'.tree.reachableTiles = .ok n := by
  have hnew : TileGraph.new threeChain 3 = .ok ⟨threeChain, threeChainForest, 3⟩ := rfl
  exact ⟨hnew, threeChain_merge_ok, TileGraph.reachable_wellFormed hnew threeChain_merge_ok⟩

end TileSched
