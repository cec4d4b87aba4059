import Mathlib
import TileSched.Proofs.Fusion.MergeStep
/-! Merge candidates. In every tile forest reachable from an initial one by merges, the candidates
listed are, in increasing order and once each, the crossings of the forest: a producer under a tile
and a consumer under the next sibling tile of the same level, the consumer reading the producer's
output. The search that a merge makes for its two tiles finds, for every crossing, the pair of the
crossing: the tiles met on the way up from a leaf are below the crossing's level, since levels fall
along every path of the forest. -/

namespace TileSched

section Lists

variable {α : Type}

theorem mem_zip_tail {l : List α} {a b : α} :
    (a, b) ∈ l.zip l.tail ↔ ∃ pre post, l = pre ++ a :: b :: post := by
  induction l with
  | nil => simp
  | cons x l ih =>
    cases l with
    | nil =>
      simp only [List.tail_cons, List.zip_nil_right, List.not_mem_nil, false_iff, not_exists]
      intro pre post h
      have := congrArg List.length h
      simp at this
      omega
    | cons y l =>
      simp only [List.tail_cons, List.zip_cons_cons, List.mem_cons, Prod.mk.injEq] at ih ⊢
      rw [ih]
      constructor
      · rintro (⟨rfl, rfl⟩ | ⟨pre, post, h⟩)
        · exact ⟨[], l, rfl⟩
        · exact ⟨x :: pre, post, by rw [h]; rfl⟩
      · rintro ⟨_ | ⟨z, pre⟩, post, h⟩
        · simp only [List.nil_append, List.cons.injEq] at h
          exact .inl ⟨h.1.symm, h.2.1.symm⟩
        · simp only [List.cons_append, List.cons.injEq] at h
          exact .inr ⟨pre, post, h.2⟩

variable [BEq α]

theorem eraseDups_sublist (l : List α) : l.eraseDups.Sublist l := by
  match l with
  | [] => simp
  | a :: as =>
    rw [List.eraseDups_cons]
    exact ((eraseDups_sublist _).trans List.filter_sublist).cons_cons a
termination_by l.length
decreasing_by exact Nat.lt_succ_of_le (List.length_filter_le _ _)

variable [LawfulBEq α]

theorem nodup_eraseDups (l : List α) : l.eraseDups.Nodup := by
  match l with
  | [] => simp
  | a :: as =>
    rw [List.eraseDups_cons, List.nodup_cons]
    refine ⟨?_, nodup_eraseDups _⟩
    simp [List.mem_eraseDups]
termination_by l.length
decreasing_by exact Nat.lt_succ_of_le (List.length_filter_le _ _)

end Lists

theorem flatMapM_map_eq_ok {ε α β γ : Type} {h : γ → α} {f : α → Except ε (List β)} {g : γ → List β} :
    ∀ {xs : List γ}, (∀ x ∈ xs, f (h x) = .ok (g x)) → (xs.map h).flatMapM f = .ok (xs.flatMap g)
  | [], _ => rfl
  | x :: xs, hf => by
    rw [List.map_cons, List.flatMapM_cons, hf x List.mem_cons_self,
      flatMapM_map_eq_ok fun y hy => hf y (List.mem_cons_of_mem _ hy)]
    rfl

theorem find?_fst_eq_some {l : List (Nat × Nat)} {a j : Nat} (hnd : (l.map Prod.fst).Nodup)
    (h : (a, j) ∈ l) : l.find? (·.1 == a) = some (a, j) := by
  have hsome : (l.find? fun e => e.1 == a).isSome := List.find?_isSome.2 ⟨(a, j), h, beq_self_eq_true a⟩
  obtain ⟨e, he⟩ := Option.isSome_iff_exists.1 hsome
  have hea : (e.1 == a) = true := List.find?_some (p := fun e : Nat × Nat => e.1 == a) he
  rw [beq_iff_eq] at hea
  rw [he, List.inj_on_of_nodup_map hnd (List.mem_of_find?_eq_some he) h hea]

namespace TileTree

theorem adjacentIn_cons {x y z : Nat} {l : List Nat} (h : adjacentIn x y l = true) :
    adjacentIn x y (z :: l) = true := by
  cases l with
  | nil => nomatch h
  | cons b rest => simp [adjacentIn, h]

theorem adjacentIn_append {x y : Nat} (post : List Nat) :
    ∀ pre : List Nat, adjacentIn x y (pre ++ x :: y :: post) = true
  | [] => by simp [adjacentIn]
  | _ :: pre => adjacentIn_cons (adjacentIn_append post pre)

end TileTree

namespace MergePoint

def key (mp : MergePoint) : Lex (ℕ × Lex (ℕ × ℕ)) := toLex (mp.producer, toLex (mp.consumer, mp.level))

theorem key_injective : Function.Injective key := by
  rintro ⟨p, c, l⟩ ⟨p', c', l'⟩ h
  simp only [key, toLex_inj, Prod.mk.injEq] at h
  obtain ⟨rfl, rfl, rfl⟩ := h
  rfl

theorem le_iff_key {a b : MergePoint} : a.le b = true ↔ a.key ≤ b.key := by
  simp only [le, key, Prod.Lex.toLex_le_toLex, Bool.or_eq_true, Bool.and_eq_true, decide_eq_true_eq,
    beq_iff_eq]

theorem mem_normalize {ps : List MergePoint} {mp : MergePoint} : mp ∈ normalize ps ↔ mp ∈ ps := by
  rw [normalize, List.mem_eraseDups, List.mem_mergeSort]

theorem normalize_sorted (ps : List MergePoint) : (normalize ps).Pairwise (fun a b => a.key < b.key) := by
  have hsorted : (ps.mergeSort le).Pairwise (fun a b => le a b = true) :=
    @List.pairwise_mergeSort _ le (fun a b c hab hbc => le_iff_key.2 ((le_iff_key.1 hab).trans (le_iff_key.1 hbc)))
      (fun a b => by
        rcases le_total a.key b.key with h | h
        · simp [le_iff_key.2 h]
        · simp [le_iff_key.2 h]) ps
  exact ((hsorted.sublist (eraseDups_sublist _)).and (nodup_eraseDups _)).imp fun h =>
    lt_of_le_of_ne (le_iff_key.1 h.1) (key_injective.ne h.2)

end MergePoint

namespace Subtree

/-- The candidates of two neighbouring subtrees: when both are tiles of one level, one point for
each consumer under the second and each of its producers under the first. -/
def crossPoints (g : Dataflow) (X Y : Subtree) : List MergePoint :=
  match X.kind, Y.kind with
  | .tile a, .tile b =>
    if a.level ≠ b.level then [] else
      (Y.leaves.map (·.1)).flatMap fun c =>
        match g.ops[c]? with
        | none => []
        | some op => (op.producers.filter (X.leaves.map (·.1)).contains).map fun p => ⟨p, c, a.level⟩
  | _, _ => []

def candidates (g : Dataflow) (S : Subtree) : List MergePoint :=
  S.subs.flatMap fun P => (P.children.zip P.children.tail).flatMap fun (X, Y) => crossPoints g X Y

/-- A crossing of `mp` in the subtree `S`: neighbouring children `X` then `Y` of a node `P` of `S`,
tiles at the level of `mp`, with the producer's leaf at `pl` under `X`, the consumer's leaf at `cl`
under `Y`, and a read of the consumer from the producer's output. -/
structure Crossing (g : Dataflow) (S : Subtree) (mp : MergePoint) (P X Y : Subtree) (pl cl : Nat) : Prop where
  parent : P ∈ S.subs
  neighbours : ∃ pre post, P.children = pre ++ X :: Y :: post
  left : ∃ xn, X.kind = .tile xn ∧ xn.level = mp.level
  right : ∃ yn, Y.kind = .tile yn ∧ yn.level = mp.level
  producer : (mp.producer, pl) ∈ X.leaves
  consumer : (mp.consumer, cl) ∈ Y.leaves
  reads : ∃ op, g.ops[mp.consumer]? = some op ∧ ∃ r ∈ op.reads, r.producer = some mp.producer

theorem mem_crossPoints {g : Dataflow} {X Y : Subtree} {mp : MergePoint} :
    mp ∈ crossPoints g X Y ↔ (∃ xn, X.kind = .tile xn ∧ xn.level = mp.level) ∧
      (∃ yn, Y.kind = .tile yn ∧ yn.level = mp.level) ∧ mp.producer ∈ X.leaves.map Prod.fst ∧
      mp.consumer ∈ Y.leaves.map Prod.fst ∧ ∃ op, g.ops[mp.consumer]? = some op ∧ mp.producer ∈ op.producers := by
  obtain ⟨p, c, l⟩ := mp
  unfold crossPoints
  cases hX : X.kind with
  | tile a =>
    cases hY : Y.kind with
    | tile b =>
      by_cases hab : a.level = b.level
      · simp only [hab, ne_eq, not_true_eq_false, if_false, List.mem_flatMap]
        constructor
        · rintro ⟨c', hc', hmem⟩
          cases hop : g.ops[c']? with
          | none => simp [hop] at hmem
          | some op =>
            rw [hop] at hmem
            obtain ⟨p', hp', heq⟩ := List.mem_map.1 hmem
            rw [List.mem_filter, List.contains_iff_mem] at hp'
            simp only [MergePoint.mk.injEq] at heq
            obtain ⟨rfl, rfl, rfl⟩ := heq
            exact ⟨⟨a, rfl, hab⟩, ⟨b, rfl, rfl⟩, hp'.2, hc', op, hop, hp'.1⟩
        · rintro ⟨⟨xn, hxn, hxl⟩, ⟨yn, hyn, hyl⟩, hpX, hcY, op, hop, hp⟩
          cases hxn
          cases hyn
          refine ⟨c, hcY, ?_⟩
          rw [hop, ← hyl]
          exact List.mem_map_of_mem (List.mem_filter.2 ⟨hp, List.contains_iff_mem.2 hpX⟩)
      · simp only [hab, ne_eq, not_false_eq_true, if_true, List.not_mem_nil, false_iff]
        rintro ⟨⟨xn, hxn, hxl⟩, ⟨yn, hyn, hyl⟩, -⟩
        cases hxn
        cases hyn
        exact hab (hxl.trans hyl.symm)
    | scope => simp
    | leaf o => simp
  | scope => simp
  | leaf o => simp

theorem mem_candidates {g : Dataflow} {S : Subtree} {mp : MergePoint} :
    mp ∈ S.candidates g ↔ ∃ P X Y pl cl, Crossing g S mp P X Y pl cl := by
  simp only [candidates, List.mem_flatMap, Prod.exists, mem_zip_tail, mem_crossPoints, OpNode.producers,
    List.mem_filterMap]
  constructor
  · rintro ⟨P, hP, X, Y, ⟨pre, post, hch⟩, hl, hr, hp, hc, hreads⟩
    obtain ⟨⟨_, pl⟩, hpl, rfl⟩ := List.mem_map.1 hp
    obtain ⟨⟨_, cl⟩, hcl, rfl⟩ := List.mem_map.1 hc
    exact ⟨P, X, Y, pl, cl, hP, ⟨pre, post, hch⟩, hl, hr, hpl, hcl, hreads⟩
  · rintro ⟨P, X, Y, pl, cl, hP, ⟨pre, post, hch⟩, hl, hr, hpl, hcl, hreads⟩
    exact ⟨P, hP, X, Y, ⟨pre, post, hch⟩, hl, hr, List.mem_map_of_mem hpl, List.mem_map_of_mem hcl, hreads⟩

end Subtree

namespace TileGraph

variable {tg : TileGraph}

theorem pairPoints_eq {X Y : Subtree} (hX : tg.tree.Realizes X) (hY : tg.tree.Realizes Y)
    (hXnd : X.ids.Nodup) (hYnd : Y.ids.Nodup) :
    tg.pairPoints X.id Y.id = .ok (Subtree.crossPoints tg.dataflow X Y) := by
  rw [TileGraph.pairPoints, hX.kind_eq, hY.kind_eq, Subtree.crossPoints]
  cases X.kind <;> cases Y.kind <;> try rfl
  dsimp only [bind, Except.bind]
  split_ifs
  · rfl
  · rw [hX.opLeaves_eq hXnd, hY.opLeaves_eq hYnd]
    rfl

theorem mergePoints_eq {top : Nat} {S : Subtree} (hF : tg.tree.Forest top S) :
    tg.mergePoints = .ok (MergePoint.normalize (S.candidates tg.dataflow)) := by
  have hr := hF.realizes
  have hpre : tg.tree.preorder tg.tree.root = .ok (S.subs.map Subtree.id) := hF.root ▸ hr.preorder_eq hF.nodup
  rw [TileGraph.mergePoints, hpre]
  dsimp only [bind, Except.bind]
  rw [flatMapM_map_eq_ok fun P hP => ?_]
  · rfl
  · -- each node's children, paired with their neighbours, are read on the subtree
    have hPnd := Subtree.nodup_of_mem_subs hF.nodup hP
    rw [(hr.sub hP).children_eq]
    dsimp only [bind, Except.bind]
    rw [← List.map_tail, List.zip_map, flatMapM_map_eq_ok fun XY hXY => ?_]
    have hX := Subtree.mem_subs_of_mem_children (List.of_mem_zip hXY).1
    have hY := Subtree.mem_subs_of_mem_children (List.tail_subset _ (List.of_mem_zip hXY).2)
    exact pairPoints_eq (hr.sub (Subtree.subs_trans hP hX)) (hr.sub (Subtree.subs_trans hP hY))
      (Subtree.nodup_of_mem_subs hPnd hX) (Subtree.nodup_of_mem_subs hPnd hY)

end TileGraph

/-! The search for a crossing's tiles. -/

namespace Subtree

variable {S Q W Z : Subtree} {L : Nat}

theorem mem_subs_child (hQ : Q ∈ S.subs) (hne : Q ≠ S) : ∃ c ∈ S.children, Q ∈ c.subs := by
  rw [← eta S, subs_node] at hQ
  rcases List.mem_cons.1 hQ with h | h
  · exact absurd (h.trans (eta S)) hne
  · exact List.mem_flatMap.1 h

theorem Tiled.tile_of_child (h : W.Tiled L) (hZ : Z ∈ W.children) : ∃ n, W.kind = .tile n ∧ n.level < L := by
  cases h with
  | tile _ hlt _ => exact ⟨_, rfl, hlt⟩
  | leaf => nomatch hZ

theorem tiled_below (hin : ∀ c ∈ W.children, c.Tiled L) (hZ : Z ∈ W.subs) (hne : Z ≠ W) : Z.Tiled L := by
  obtain ⟨c, hc, hZc⟩ := mem_subs_child hZ hne
  exact (hin c hc).of_mem_subs hZc

theorem parent_in_tile {X : Subtree} (hin : ∀ c ∈ X.children, c.Tiled L) (hW : W ∈ X.subs) (hZW : Z ∈ W.children) :
    W = X ∨ ∃ m, W.kind = .tile m ∧ m.level < L := by
  by_cases hWX : W = X
  · exact .inl hWX
  · exact .inr ((tiled_below hin hW hWX).tile_of_child hZW)

theorem mem_leaves_of_mem_subs (hQ : Q ∈ S.subs) {a j : Nat} (h : (a, j) ∈ Q.leaves) : (a, j) ∈ S.leaves := by
  obtain ⟨R, hR, hid, hk⟩ := mem_leaves.1 h
  exact mem_leaves.2 ⟨R, subs_trans hQ hR, hid, hk⟩

end Subtree

namespace TileTree

namespace Forest

variable {t : TileTree} {top : Nat} {S X : Subtree}

theorem below_tile (hF : t.Forest top S) (hX : X ∈ S.subs) {xn : TileNode} (hxn : X.kind = .tile xn) :
    ∀ c ∈ X.children, c.Tiled xn.level := by
  have hne : X ≠ S := fun h => by
    rw [h, hF.scope] at hxn
    nomatch hxn
  obtain ⟨c, hc, hXc⟩ := Subtree.mem_subs_child hX hne
  exact ((hF.tops c hc).2.levels hXc hxn).2.2

theorem findOp_eq_some (hF : t.Forest top S) (hops : (S.leaves.map Prod.fst).Nodup) (hX : X ∈ S.subs)
    {a j : Nat} (h : (a, j) ∈ X.leaves) : t.findOp t.root a = .ok (some j) := by
  rw [← hF.root, hF.realizes.findOp_eq hF.nodup,
    find?_fst_eq_some hops (Subtree.mem_leaves_of_mem_subs hX h)]
  rfl

end Forest

namespace Realizes

variable {t : TileTree} {X : Subtree} {L : Nat}

theorem tileAtLevel_climb (hr : t.Realizes X) {xn : TileNode} (hxn : X.kind = .tile xn) (hxl : xn.level = L)
    (hin : ∀ c ∈ X.children, c.Tiled L) :
    ∀ f, ∀ Z ∈ X.subs, (Z = X ∨ ∃ n, Z.kind = .tile n ∧ n.level < L) → X.ids.length - Z.ids.length < f →
      t.tileAtLevel L f (some Z.id) = .ok (some X.id)
  | 0, _, _, _, hf => absurd hf (Nat.not_lt_zero _)
  | f + 1, Z, hZ, hk, hf => by
    rw [TileTree.tileAtLevel, hr.kind_of_mem hZ]
    rcases hk with rfl | ⟨n, hn, hnl⟩
    · simp [hxn, hxl, bind, Except.bind, pure, Except.pure]
    · -- a tile under the level: the search goes on from its parent inside `X`
      have hne : Z ≠ X := fun h => by
        rw [h, hxn] at hn
        cases hn
        omega
      obtain ⟨W, hW, hZW⟩ := Subtree.exists_parent hZ hne
      have hlen := Subtree.length_ids_child hZW
      have hWle := (Subtree.sublist_ids hW).length_le
      simp only [hn, bind, Except.bind, Nat.ne_of_lt hnl, if_false, gt_iff_lt, not_lt.2 hnl.le,
        (hr.sub hW).parent_eq hZW]
      exact tileAtLevel_climb hr hxn hxl hin f W hW (Subtree.parent_in_tile hin hW hZW) (by omega)

theorem tileAtLevel_of_leaf (hr : t.Realizes X) (hnd : X.ids.Nodup) {xn : TileNode} (hxn : X.kind = .tile xn)
    (hxl : xn.level = L) (hin : ∀ c ∈ X.children, c.Tiled L) {a j : Nat} (hj : (a, j) ∈ X.leaves) :
    ∃ o, t.parent j = .ok o ∧ t.tileAtLevel L t.fuel o = .ok (some X.id) := by
  obtain ⟨Q, hQ, rfl, o, hQo, -⟩ := Subtree.mem_leaves.1 hj
  have hne : Q ≠ X := fun h => by
    rw [h, hxn] at hQo
    nomatch hQo
  obtain ⟨W, hW, hQW⟩ := Subtree.exists_parent hQ hne
  have hsize := hr.length_ids_le hnd
  exact ⟨some W.id, (hr.sub hW).parent_eq hQW,
    tileAtLevel_climb hr hxn hxl hin t.fuel W hW (Subtree.parent_in_tile hin hW hQW) (by rw [TileTree.fuel]; omega)⟩

end Realizes

end TileTree

namespace MergePoint

variable {t : TileTree} {top : Nat} {S P X Y : Subtree} {g : Dataflow} {mp : MergePoint} {pl cl : Nat}

theorem locate_crossing (hF : t.Forest top S) (hops : (S.leaves.map Prod.fst).Nodup)
    (hc : Subtree.Crossing g S mp P X Y pl cl) : mp.locate t = .ok ⟨P.id, X.id, Y.id, pl, cl⟩ := by
  obtain ⟨hP, ⟨pre, post, hch⟩, ⟨xn, hxn, hxl⟩, ⟨yn, hyn, hyl⟩, hpl, hcl, -⟩ := hc
  have hr := hF.realizes
  have hPnd := Subtree.nodup_of_mem_subs hF.nodup hP
  have hXP : X ∈ P.children := by simp [hch]
  have hYP : Y ∈ P.children := by simp [hch]
  have hXS := Subtree.subs_trans hP (Subtree.mem_subs_of_mem_children hXP)
  have hYS := Subtree.subs_trans hP (Subtree.mem_subs_of_mem_children hYP)
  -- the two leaves are found, and the searches from them climb to the two tiles
  obtain ⟨ox, hox, htx⟩ := (hr.sub hXS).tileAtLevel_of_leaf (Subtree.nodup_of_mem_subs hF.nodup hXS) hxn hxl
    (hxl ▸ hF.below_tile hXS hxn) hpl
  obtain ⟨oy, hoy, hty⟩ := (hr.sub hYS).tileAtLevel_of_leaf (Subtree.nodup_of_mem_subs hF.nodup hYS) hyn hyl
    (hyl ▸ hF.below_tile hYS hyn) hcl
  -- the two tiles are distinct neighbours under the parent
  have hids := Subtree.children_ids_nodup hPnd
  rw [hch, List.map_append, List.map_cons, List.map_cons] at hids
  have hxy : X.id ≠ Y.id := fun h =>
    (List.nodup_cons.1 (hids.sublist (List.sublist_append_right _ _))).1 (h ▸ List.mem_cons_self)
  have hadj : TileTree.adjacentIn X.id Y.id (P.children.map Subtree.id) = true := by
    rw [hch, List.map_append, List.map_cons, List.map_cons]
    exact TileTree.adjacentIn_append _ _
  simp [MergePoint.locate, liftFault, Except.mapError, hF.findOp_eq_some hops hXS hpl,
    hF.findOp_eq_some hops hYS hcl, hox, hoy, htx, hty, hxy, (hr.sub hP).parent_eq hXP, (hr.sub hP).parent_eq hYP,
    (hr.sub hP).children_eq, hadj, Option.filter_some, bind, Except.bind, pure, Except.pure]

end MergePoint

namespace TileGraph

theorem reachable_forest {g : Dataflow} {top : Nat} {tg₀ tg : TileGraph} {mps : List MergePoint}
    (hnew : TileGraph.new g top = .ok tg₀) (hrun : mps.foldlM TileGraph.merge tg₀ = .ok tg) :
    tg.dataflow = g ∧ tg.topLevel = top ∧
      ∃ S, tg.tree.Forest top S ∧ S.leaves.map Prod.fst = List.range g.ops.length := by
  refine foldlM_ok_inv (fun tg : TileGraph => tg.dataflow = g ∧ tg.topLevel = top ∧
      ∃ S, tg.tree.Forest top S ∧ S.leaves.map Prod.fst = List.range g.ops.length)
    hrun (new_forest hnew) ?_
  rintro tg mp tg' - ⟨hg, htop, S, hF, hl⟩ h
  obtain ⟨t', hrun', rfl⟩ := merge_eq_ok h
  obtain ⟨S', hF', hl', -⟩ := MergePoint.apply_forest hF hrun'
  exact ⟨hg, htop, S', hF', by rw [hl', hl]⟩

end TileGraph

/-- In every graph reached from an initial one by successful merges, the candidates listed are, in
strictly increasing order, exactly the points with a crossing in the forest; and for each crossing
the search for the merge's nodes finds the crossing's parent, tiles and leaves, so that only the
derivation of the relation or the scope checks can reject a candidate. -/
theorem mergePoints_crossings {g : Dataflow} {top : Nat} {tg₀ tg : TileGraph} {mps : List MergePoint}
    (hnew : TileGraph.new g top = .ok tg₀) (hrun : mps.foldlM TileGraph.merge tg₀ = .ok tg) :
    ∃ S pts, tg.tree.Forest top S ∧ tg.mergePoints = .ok pts ∧ pts.Pairwise (fun a b => a.key < b.key) ∧
      (∀ mp, mp ∈ pts ↔ ∃ P X Y pl cl, Subtree.Crossing g S mp P X Y pl cl) ∧
      ∀ mp P X Y pl cl, Subtree.Crossing g S mp P X Y pl cl →
        mp.locate tg.tree = .ok ⟨P.id, X.id, Y.id, pl, cl⟩ := by
  obtain ⟨hg, -, S, hF, hl⟩ := TileGraph.reachable_forest hnew hrun
  have hops : (S.leaves.map Prod.fst).Nodup := hl ▸ List.nodup_range
  refine ⟨S, _, hF, TileGraph.mergePoints_eq hF, MergePoint.normalize_sorted _, fun mp => ?_,
    fun mp P X Y pl cl hc => MergePoint.locate_crossing hF hops hc⟩
  rw [MergePoint.mem_normalize, Subtree.mem_candidates, hg]

def threeChainMerged : TileTree :=
  (((⟨0, 1, 3⟩ : MergePoint).apply threeChain).run.run threeChainForest).2

theorem threeChain_merge_ok :
    [⟨0, 1, 3⟩].foldlM TileGraph.merge ⟨threeChain, threeChainForest, 3⟩ = .ok ⟨threeChain, threeChainMerged, 3⟩ := by
  have hok : (((⟨0, 1, 3⟩ : MergePoint).apply threeChain).run.run threeChainForest).1.toOption = some () := by
    decide +kernel
  have hmerge : TileGraph.merge ⟨threeChain, threeChainForest, 3⟩ ⟨0, 1, 3⟩ =
      .ok ⟨threeChain, threeChainMerged, 3⟩ := by
    rw [TileGraph.merge, threeChainMerged]
    revert hok
    rcases (((⟨0, 1, 3⟩ : MergePoint).apply threeChain).run.run threeChainForest) with ⟨_ | ⟨⟩, t'⟩
    · intro h
      nomatch h
    · intro _
      rfl
  rw [List.foldlM_cons, hmerge]
  rfl

/-- The candidates of `threeChain` after one merge are its crossings, each found by the search. -/
theorem threeChain_merged_crossings :
    TileGraph.new threeChain 3 = .ok ⟨threeChain, threeChainForest, 3⟩ ∧
      [⟨0, 1, 3⟩].foldlM TileGraph.merge ⟨threeChain, threeChainForest, 3⟩ =
        .ok ⟨threeChain, threeChainMerged, 3⟩ ∧
      ∃ S pts, threeChainMerged.Forest 3 S ∧ (TileGraph.mk threeChain threeChainMerged 3).mergePoints = .ok pts ∧
        pts.Pairwise (fun a b => a.key < b.key) ∧
        (∀ mp, mp ∈ pts ↔ ∃ P X Y pl cl, Subtree.Crossing threeChain S mp P X Y pl cl) ∧
        ∀ mp P X Y pl cl, Subtree.Crossing threeChain S mp P X Y pl cl →
          mp.locate threeChainMerged = .ok ⟨P.id, X.id, Y.id, pl, cl⟩ := by
  have hnew : TileGraph.new threeChain 3 = .ok ⟨threeChain, threeChainForest, 3⟩ := rfl
  exact ⟨hnew, threeChain_merge_ok, mergePoints_crossings hnew threeChain_merge_ok⟩

end TileSched
