import TileSched.Proofs.Fusion.Forest
/-! A merge read on subtrees. Two adjacent children `X` then `Y` of a parent `P` give way to one new
tile node, which adopts the children of `X`, then those of `Y`, each with a new relation. The
merged parent holds the same operation leaves in the same order, one tile fewer, and the positions
of the old parent but those of `X` and `Y`, with the new node's; put back in place of the old
parent, it changes nothing else of the whole. -/

namespace TileSched

namespace Subtree


def setRelation (c : Subtree) (r : AffineMap) : Subtree := node c.id (c.kind.setRelation r) c.children

def tileCount (S : Subtree) : Nat := ((S.subs.map label).filter fun l => l.2.isTile).length

theorem tileCount_node (i : Nat) (k : NodeKind) (cs : List Subtree) :
    (node i k cs).tileCount = (if k.isTile then 1 else 0) + (cs.map tileCount).sum := by
  have hsum : ((cs.flatMap subs).map label |>.filter fun l => l.2.isTile).length = (cs.map tileCount).sum := by
    rw [List.flatMap_def, List.map_flatten, List.filter_flatten, List.length_flatten, List.map_map,
      List.map_map, List.map_map]
    rfl
  rw [tileCount, subs_node, List.map_cons, List.filter_cons, label_node]
  split <;> simp [hsum, Nat.add_comm]

variable {c : Subtree} {r : AffineMap}

@[simp] theorem id_setRelation : (c.setRelation r).id = c.id := rfl

@[simp] theorem children_setRelation : (c.setRelation r).children = c.children := rfl

theorem ids_setRelation : (c.setRelation r).ids = c.ids := by
  cases c
  rw [setRelation, ids_node, ids_node]
  rfl

theorem leaves_setRelation : (c.setRelation r).leaves = c.leaves := by
  cases c with
  | node i k cs =>
    rw [setRelation, leaves_node, leaves_node]
    cases k <;> rfl

theorem tileCount_setRelation : (c.setRelation r).tileCount = c.tileCount := by
  cases c with
  | node i k cs =>
    rw [setRelation, tileCount_node, tileCount_node]
    cases k <;> rfl

theorem Tiled.setRelation {L : Nat} (h : c.Tiled L) : (c.setRelation r).Tiled L := by
  cases h with
  | tile hpos hlt hcs => exact .tile hpos hlt hcs
  | leaf => exact .leaf

theorem map_id_sublist : ∀ cs : List Subtree, (cs.map id).Sublist (cs.map ids).flatten
  | [] => .slnil
  | c :: cs => by
    rw [List.map_cons, List.map_cons, List.flatten_cons]
    cases c with
    | node i k ds =>
      rw [ids_node, id_node, List.cons_append]
      exact ((map_id_sublist cs).trans (List.sublist_append_right _ _)).cons_cons i

def adopted (cs : List Subtree) (L : List (Nat × AffineMap)) : List Subtree :=
  (cs.zip L).map fun e => e.1.setRelation e.2.2

/-- The parent of a merge afterwards: its children `X` then `Y` replaced by the node `m` of kind
`k`, which adopts the children of `X`, then those of `Y`, with the relations of `L`. -/
def merged (P : Subtree) (pre post : List Subtree) (X Y : Subtree) (m : Nat) (k : NodeKind)
    (L : List (Nat × AffineMap)) : Subtree :=
  node P.id P.kind (pre ++ node m k (adopted (X.children ++ Y.children) L) :: post)

theorem map_adopted {β : Type} {F : Subtree → β} (hF : ∀ c r, F (c.setRelation r) = F c)
    {cs : List Subtree} {L : List (Nat × AffineMap)} (hlen : cs.length ≤ L.length) :
    (adopted cs L).map F = cs.map F := by
  rw [adopted, List.map_map]
  change (cs.zip L).map (fun e => F (e.1.setRelation e.2.2)) = _
  simp only [hF]
  change (cs.zip L).map (F ∘ Prod.fst) = _
  rw [← List.map_map, List.map_fst_zip hlen]

theorem children_nodup {S : Subtree} (hnd : S.ids.Nodup) : S.children.Nodup := by
  cases S with
  | node i k cs =>
    rw [ids_node, List.nodup_cons] at hnd
    exact List.Nodup.of_map id ((map_id_sublist cs).nodup hnd.2)

theorem children_ids_nodup {S : Subtree} (hnd : S.ids.Nodup) : (S.children.map id).Nodup := by
  cases S with
  | node i k cs =>
    rw [ids_node, List.nodup_cons] at hnd
    exact (map_id_sublist cs).nodup hnd.2

theorem fst_of_mem_zip : ∀ {cs : List Subtree} {L : List (Nat × AffineMap)}, L.map Prod.fst = cs.map id →
    ∀ {c : Subtree} {e : Nat × AffineMap}, (c, e) ∈ cs.zip L → e.1 = c.id
  | [], _, _, _, _, h => nomatch h
  | _ :: _, [], _, _, _, h => nomatch h
  | c' :: cs, e' :: L, hL, c, e, h => by
    simp only [List.map_cons, List.cons.injEq] at hL
    rcases List.mem_cons.1 h with h | h
    · cases h
      exact hL.1
    · exact fst_of_mem_zip hL.2 h

section Merged

variable {P X Y : Subtree} {pre post : List Subtree} {m : Nat} {k : NodeKind}
  {L : List (Nat × AffineMap)}

theorem ids_merged (hlen : (X.children ++ Y.children).length ≤ L.length) :
    (P.merged pre post X Y m k L).ids =
      P.id :: ((pre.map ids).flatten ++ m :: ((X.children.map ids).flatten ++
        ((Y.children.map ids).flatten ++ (post.map ids).flatten))) := by
  rw [merged, ids_node, List.map_append, List.map_cons, ids_node, map_adopted (fun _ _ => ids_setRelation) hlen]
  simp

theorem ids_of_children (hch : P.children = pre ++ X :: Y :: post) :
    P.ids = P.id :: ((pre.map ids).flatten ++ X.id :: ((X.children.map ids).flatten ++
      Y.id :: ((Y.children.map ids).flatten ++ (post.map ids).flatten))) := by
  conv_lhs => rw [← eta P, ids_node, hch]
  rw [← eta X, ← eta Y]
  simp [ids_node]

theorem ids_merged_perm (hch : P.children = pre ++ X :: Y :: post)
    (hlen : (X.children ++ Y.children).length ≤ L.length) :
    ∃ Z, List.Perm (P.merged pre post X Y m k L).ids (m :: Z) ∧ Z.Sublist P.ids := by
  refine ⟨P.id :: ((pre.map ids).flatten ++ ((X.children.map ids).flatten ++
    ((Y.children.map ids).flatten ++ (post.map ids).flatten))), ?_, ?_⟩
  · rw [ids_merged hlen]
    exact (List.perm_middle.cons P.id).trans (List.Perm.swap m P.id _)
  · rw [ids_of_children hch]
    exact ((List.Sublist.refl _).append
      (((List.Sublist.refl _).append ((List.Sublist.refl _).cons _)).cons _)).cons_cons _

theorem leaves_merged (hch : P.children = pre ++ X :: Y :: post) (hX : X.kind.isTile) (hY : Y.kind.isTile)
    (hk : k.isTile) (hlen : (X.children ++ Y.children).length ≤ L.length) :
    (P.merged pre post X Y m k L).leaves = P.leaves := by
  -- a tile holds no leaf itself: the leaves of `X`, `Y` and `m` are those of their children
  have htile : ∀ S : Subtree, S.kind.isTile → S.leaves = (S.children.map leaves).flatten := fun S hS => by
    rw [← eta S, leaves_node]
    cases h : S.kind <;> simp_all [leafEntry, NodeKind.isTile]
  rw [merged, leaves_node, ← eta P, leaves_node, eta, hch]
  simp only [List.map_append, List.map_cons, List.flatten_append, List.flatten_cons]
  rw [htile (node m k _) hk, children_node, map_adopted (fun _ _ => leaves_setRelation) hlen, htile X hX,
    htile Y hY]
  simp

theorem tileCount_merged (hch : P.children = pre ++ X :: Y :: post) (hX : X.kind.isTile) (hY : Y.kind.isTile)
    (hk : k.isTile) (hlen : (X.children ++ Y.children).length ≤ L.length) :
    (P.merged pre post X Y m k L).tileCount + 1 = P.tileCount := by
  -- a tile counts itself and the tiles of its children
  have htile : ∀ S : Subtree, S.kind.isTile → S.tileCount = 1 + (S.children.map tileCount).sum := fun S hS => by
    rw [← eta S, tileCount_node, if_pos hS]
    rfl
  rw [merged, tileCount_node, ← eta P, tileCount_node, eta, hch]
  simp only [List.map_append, List.map_cons, List.sum_append, List.sum_cons]
  rw [htile (node m k _) hk, children_node, map_adopted (fun _ _ => tileCount_setRelation) hlen, htile X hX,
    htile Y hY]
  simp only [List.map_append, List.sum_append]
  omega

theorem tiled_mergedNode {L' l : Nat} (hX : X.Tiled L') (hY : Y.Tiled L') {xn yn : TileNode}
    (hxn : X.kind = .tile xn) (hyn : Y.kind = .tile yn) (hxl : xn.level = l) (hyl : yn.level = l)
    {kn : TileNode} (hkn : kn.level = l) :
    (node m (.tile kn) (adopted (X.children ++ Y.children) L)).Tiled L' := by
  obtain ⟨hxpos, hxlt, hxcs⟩ := hX.levels (self_mem_subs X) hxn
  obtain ⟨-, -, hycs⟩ := hY.levels (self_mem_subs Y) hyn
  refine .tile (by omega) (by omega) fun c hc => ?_
  obtain ⟨e, he, rfl⟩ := List.mem_map.1 hc
  rcases List.mem_append.1 (List.of_mem_zip he).1 with hcX | hcY
  · exact (hkn ▸ hxl ▸ hxcs e.1 hcX).setRelation
  · exact (hkn ▸ hyl ▸ hycs e.1 hcY).setRelation

end Merged

/-- A merge site in a subtree with distinct positions: `X` then `Y` adjacent among the children of
`P`, a subtree of `S`, and `L` pairing the children of `X`, then those of `Y`, with new relations. -/
structure Site (S P X Y : Subtree) (pre post : List Subtree) (L : List (Nat × AffineMap)) : Prop where
  nodup : S.ids.Nodup
  parent : P ∈ S.subs
  children : P.children = pre ++ X :: Y :: post
  adopted : L.map Prod.fst = (X.children ++ Y.children).map id

namespace Site

variable {S P X Y : Subtree} {pre post : List Subtree} {L : List (Nat × AffineMap)}
  (hs : Site S P X Y pre post L)
include hs

theorem nodup_parent : P.ids.Nodup := nodup_of_mem_subs hs.nodup hs.parent

theorem mem_left : X ∈ P.children := by
  rw [hs.children]
  simp

theorem mem_right : Y ∈ P.children := by
  rw [hs.children]
  simp

theorem mem_side {d : Subtree} (hd : d ∈ pre ++ post) : d ∈ P.children ∧ d ≠ X ∧ d ≠ Y := by
  have hnd := children_nodup hs.nodup_parent
  rw [hs.children] at hnd ⊢
  rw [List.nodup_middle, List.nodup_cons, List.nodup_middle, List.nodup_cons] at hnd
  rcases List.mem_append.1 hd with hd | hd
  · exact ⟨by simp [hd], fun h => hnd.1 (by simp [← h, hd]), fun h => hnd.2.1 (by simp [← h, hd])⟩
  · exact ⟨by simp [hd], fun h => hnd.1 (by simp [← h, hd]), fun h => hnd.2.1 (by simp [← h, hd])⟩

theorem left_ne_right : X ≠ Y := by
  have hnd := children_nodup hs.nodup_parent
  rw [hs.children, List.nodup_middle, List.nodup_cons] at hnd
  exact fun h => hnd.1 (by simp [h])

theorem below_pair {Z W c g : Subtree} (hZ : Z ∈ P.children) (hW : W ∈ P.children) (hZW : Z ≠ W)
    (hc : c ∈ Z.children) (hg : g ∈ c.children) {j : Nat} (hj : j ∈ g.ids) :
    j ≠ P.id ∧ j ≠ Z.id ∧ j ≠ W.id ∧ j ∉ Z.children.map id ∧ j ∉ W.children.map id := by
  have hPnd := hs.nodup_parent
  have hZnd := nodup_of_mem_subs hPnd (mem_subs_of_mem_children hZ)
  have hcnd := nodup_of_mem_subs hZnd (mem_subs_of_mem_children hc)
  have hjc : j ∈ c.ids := ids_sub (mem_subs_of_mem_children hg) j hj
  have hjZ : j ∈ Z.ids := ids_sub (mem_subs_of_mem_children hc) j hjc
  refine ⟨fun h => id_not_mem_child hPnd hZ (h ▸ hjZ), fun h => id_not_mem_child hZnd hc (h ▸ hjc),
    fun h => disjoint_children hPnd hZ hW hZW j hjZ (h ▸ id_mem_ids W), fun h => ?_, fun h => ?_⟩
  · obtain ⟨c', hc', hjc'⟩ := List.mem_map.1 h
    by_cases hcc : c' = c
    · subst hcc
      exact id_not_mem_child hcnd hg (hjc' ▸ hj)
    · exact disjoint_children hZnd hc hc' (Ne.symm hcc) j hjc (hjc' ▸ id_mem_ids c')
  · obtain ⟨c', hc', hjc'⟩ := List.mem_map.1 h
    exact disjoint_children hPnd hZ hW hZW j hjZ
      (ids_sub (mem_subs_of_mem_children hc') j (hjc' ▸ id_mem_ids c'))

theorem below_untouched {c g : Subtree} (hc : c ∈ X.children ++ Y.children) (hg : g ∈ c.children)
    {j : Nat} (hj : j ∈ g.ids) : j ≠ P.id ∧ j ≠ X.id ∧ j ≠ Y.id ∧ j ∉ L.map Prod.fst := by
  rw [hs.adopted, List.map_append, List.mem_append, not_or]
  rcases List.mem_append.1 hc with hc | hc
  · obtain ⟨h₁, h₂, h₃, h₄, h₅⟩ := hs.below_pair hs.mem_left hs.mem_right hs.left_ne_right hc hg hj
    exact ⟨h₁, h₂, h₃, h₄, h₅⟩
  · obtain ⟨h₁, h₂, h₃, h₄, h₅⟩ := hs.below_pair hs.mem_right hs.mem_left (Ne.symm hs.left_ne_right) hc hg hj
    exact ⟨h₁, h₃, h₂, h₅, h₄⟩

theorem side_untouched {d : Subtree} (hd : d ∈ pre ++ post) {j : Nat} (hj : j ∈ d.ids) :
    j ≠ P.id ∧ j ≠ X.id ∧ j ≠ Y.id ∧ j ∉ L.map Prod.fst := by
  have hPnd := hs.nodup_parent
  obtain ⟨hdP, hdX, hdY⟩ := hs.mem_side hd
  have hX : ∀ i ∈ X.ids, j ≠ i := fun i hi h => disjoint_children hPnd hdP hs.mem_left hdX j hj (h ▸ hi)
  have hY : ∀ i ∈ Y.ids, j ≠ i := fun i hi h => disjoint_children hPnd hdP hs.mem_right hdY j hj (h ▸ hi)
  refine ⟨fun h => id_not_mem_child hPnd hdP (h ▸ hj), hX _ (id_mem_ids X), hY _ (id_mem_ids Y), ?_⟩
  rw [hs.adopted, List.map_append, List.mem_append, not_or]
  constructor
  · intro h
    obtain ⟨c, hc, rfl⟩ := List.mem_map.1 h
    exact hX c.id (ids_sub (mem_subs_of_mem_children hc) _ (id_mem_ids c)) rfl
  · intro h
    obtain ⟨c, hc, rfl⟩ := List.mem_map.1 h
    exact hY c.id (ids_sub (mem_subs_of_mem_children hc) _ (id_mem_ids c)) rfl

theorem touched_mem {j : Nat} (hj : j = P.id ∨ j = X.id ∨ j = Y.id ∨ j ∈ L.map Prod.fst) : j ∈ P.ids := by
  have hXP := ids_sub (mem_subs_of_mem_children hs.mem_left)
  have hYP := ids_sub (mem_subs_of_mem_children hs.mem_right)
  rcases hj with rfl | rfl | rfl | hj
  · exact id_mem_ids P
  · exact hXP _ (id_mem_ids X)
  · exact hYP _ (id_mem_ids Y)
  · rw [hs.adopted, List.map_append, List.mem_append] at hj
    rcases hj with hj | hj
    · obtain ⟨c, hc, rfl⟩ := List.mem_map.1 hj
      exact hXP _ (ids_sub (mem_subs_of_mem_children hc) _ (id_mem_ids c))
    · obtain ⟨c, hc, rfl⟩ := List.mem_map.1 hj
      exact hYP _ (ids_sub (mem_subs_of_mem_children hc) _ (id_mem_ids c))

theorem ids_distinct : P.id ≠ X.id ∧ P.id ≠ Y.id ∧ X.id ≠ Y.id ∧ P.id ∉ L.map Prod.fst ∧
    X.id ∉ L.map Prod.fst ∧ Y.id ∉ L.map Prod.fst ∧ (L.map Prod.fst).Nodup := by
  have hPnd := hs.nodup_parent
  have hXnd := nodup_of_mem_subs hPnd (mem_subs_of_mem_children hs.mem_left)
  have hYnd := nodup_of_mem_subs hPnd (mem_subs_of_mem_children hs.mem_right)
  have hXY := disjoint_children hPnd hs.mem_left hs.mem_right hs.left_ne_right
  have hXc : ∀ c ∈ X.children, c.id ∈ X.ids := fun c hc => ids_sub (mem_subs_of_mem_children hc) _ (id_mem_ids c)
  have hYc : ∀ c ∈ Y.children, c.id ∈ Y.ids := fun c hc => ids_sub (mem_subs_of_mem_children hc) _ (id_mem_ids c)
  rw [hs.adopted, List.map_append]
  refine ⟨fun h => id_not_mem_child hPnd hs.mem_left (h ▸ id_mem_ids X),
    fun h => id_not_mem_child hPnd hs.mem_right (h ▸ id_mem_ids Y),
    fun h => hXY _ (id_mem_ids X) (h ▸ id_mem_ids Y), ?_, ?_, ?_, ?_⟩
  · simp only [List.mem_append, List.mem_map, not_or, not_exists, not_and]
    exact ⟨fun c hc h => id_not_mem_child hPnd hs.mem_left (h ▸ hXc c hc),
      fun c hc h => id_not_mem_child hPnd hs.mem_right (h ▸ hYc c hc)⟩
  · simp only [List.mem_append, List.mem_map, not_or, not_exists, not_and]
    exact ⟨fun c hc h => id_not_mem_child hXnd hc (h ▸ id_mem_ids c),
      fun c hc h => hXY _ (id_mem_ids X) (h ▸ hYc c hc)⟩
  · simp only [List.mem_append, List.mem_map, not_or, not_exists, not_and]
    exact ⟨fun c hc h => hXY _ (hXc c hc) (h ▸ id_mem_ids Y),
      fun c hc h => id_not_mem_child hYnd hc (h ▸ id_mem_ids c)⟩
  · refine List.nodup_append.2 ⟨children_ids_nodup hXnd, children_ids_nodup hYnd, ?_⟩
    intro a ha b hb hab
    obtain ⟨c, hc, rfl⟩ := List.mem_map.1 ha
    obtain ⟨d, hd, rfl⟩ := List.mem_map.1 hb
    exact hXY _ (hXc c hc) (hab ▸ hYc d hd)

end Site



theorem Tiled.merged {L' l m : Nat} {P X Y : Subtree} {pre post : List Subtree} {L : List (Nat × AffineMap)}
    (h : P.Tiled L') (hch : P.children = pre ++ X :: Y :: post) {xn yn kn : TileNode}
    (hxn : X.kind = .tile xn) (hyn : Y.kind = .tile yn) (hxl : xn.level = l) (hyl : yn.level = l)
    (hkn : kn.level = l) : (P.merged pre post X Y m (.tile kn) L).Tiled L' := by
  cases h with
  | @tile _ i n cs hpos hlt hcs =>
    rw [children_node] at hch
    subst hch
    refine .tile hpos hlt fun c hc => ?_
    simp only [List.mem_append, List.mem_cons] at hc
    rcases hc with hc | rfl | hc
    · exact hcs c (by simp [hc])
    · exact tiled_mergedNode (hcs X (by simp)) (hcs Y (by simp)) hxn hyn hxl hyl hkn
    · exact hcs c (by simp [hc])
  | leaf => simp at hch



/-! What replacing one subtree changes: the positions, the leaves and the tiles of the replaced
block, nothing else. -/

section Replace

variable {S P : Subtree} (hnd : S.ids.Nodup) (hP : P ∈ S.subs) (P' : Subtree)
include hnd hP

theorem ids_replace : ∃ A B, S.ids = A ++ P.ids ++ B ∧ (S.replace P.id P').ids = A ++ P'.ids ++ B := by
  obtain ⟨A, B, h₁, h₂⟩ := subs_replace hnd hP P'
  refine ⟨A.map Prod.fst, B.map Prod.fst, ?_, ?_⟩
  · rw [ids_eq_map_label, h₁, ids_eq_map_label]
    simp
  · rw [ids_eq_map_label, h₂, ids_eq_map_label]
    simp

theorem nodup_replace {m : Nat} {Z : List Nat} (hperm : List.Perm P'.ids (m :: Z)) (hZ : Z.Sublist P.ids)
    (hm : m ∉ S.ids) : (S.replace P.id P').ids.Nodup := by
  obtain ⟨A, B, h₁, h₂⟩ := ids_replace hnd hP P'
  rw [h₂]
  have hsub : (A ++ Z ++ B).Sublist S.ids := by
    rw [h₁]
    exact ((List.Sublist.refl A).append hZ).append (List.Sublist.refl B)
  have hperm' : List.Perm (A ++ P'.ids ++ B) (m :: (A ++ Z ++ B)) := by
    refine ((hperm.append_left A).append_right B).trans ?_
    simp only [List.append_assoc, List.cons_append]
    exact List.perm_middle
  exact hperm'.nodup_iff.2 (List.nodup_cons.2 ⟨fun h => hm (hsub.subset h), hsub.nodup hnd⟩)

theorem leaves_replace (h : P'.leaves = P.leaves) : (S.replace P.id P').leaves = S.leaves := by
  obtain ⟨A, B, h₁, h₂⟩ := subs_replace hnd hP P'
  rw [leaves, h₂, leaves, h₁]
  simp only [List.filterMap_append]
  rw [← leaves, ← leaves, h]

theorem tileCount_replace :
    (S.replace P.id P').tileCount + P.tileCount = S.tileCount + P'.tileCount := by
  obtain ⟨A, B, h₁, h₂⟩ := subs_replace hnd hP P'
  simp only [tileCount, h₁, h₂, List.filter_append, List.length_append]
  omega

theorem kind_replace (hk : P'.kind = P.kind) : (S.replace P.id P').kind = S.kind := by
  cases S with
  | node i k cs =>
    rw [replace_node]
    split_ifs with hi
    · rw [hk, eq_of_id_mem hnd hP (by rw [id_node, hi]; exact id_mem_ids P)]
    · rfl

end Replace

theorem Tiled.replace {L : Nat} {S P P' : Subtree} (h : S.Tiled L) (hnd : S.ids.Nodup) (hP : P ∈ S.subs)
    (hP' : ∀ L', P.Tiled L' → P'.Tiled L') : (S.replace P.id P').Tiled L := by
  induction h with
  | @tile L i n cs hpos hlt hcs ih =>
    rw [replace_node]
    split_ifs with hi
    · have hPS := eq_of_id_mem hnd hP (by rw [id_node, hi]; exact id_mem_ids P)
      exact hP' L (hPS ▸ .tile hpos hlt hcs)
    · refine .tile hpos hlt fun c' hc' => ?_
      obtain ⟨c, hc, rfl⟩ := List.mem_map.1 hc'
      have hcnd := nodup_of_mem_subs hnd (mem_subs_of_mem_children (S := node i (.tile n) cs) hc)
      by_cases hPc : P ∈ c.subs
      · exact ih c hc hcnd hPc
      · -- the replaced position lies in another child
        rw [replace_of_not_mem P' (id_not_mem_of_not_mem_subs hnd hP
          (mem_subs_of_mem_children (S := node i (.tile n) cs) hc) hPc)]
        exact hcs c hc
  | @leaf L i o =>
    rw [replace_node]
    split_ifs with hi
    · have hPS := eq_of_id_mem hnd hP (by rw [id_node, hi]; exact id_mem_ids P)
      exact hP' L (hPS ▸ .leaf)
    · exact .leaf

end Subtree

namespace Subtree.Site


variable {S P X Y : Subtree} {pre post : List Subtree} {L : List (Nat × AffineMap)}

theorem length_le (hs : Site S P X Y pre post L) : (X.children ++ Y.children).length ≤ L.length := by
  have := congrArg List.length hs.adopted
  simp only [List.length_map] at this
  omega

theorem splice_children (hs : Site S P X Y pre post L) (m : Nat) :
    ((P.children.map id).filter (· != X.id)).map (fun c => if c = Y.id then m else c) =
      pre.map id ++ m :: post.map id := by
  have hside : ∀ d ∈ pre ++ post, d.id ≠ X.id ∧ d.id ≠ Y.id := fun d hd =>
    ⟨(hs.side_untouched hd (id_mem_ids d)).2.1, (hs.side_untouched hd (id_mem_ids d)).2.2.1⟩
  have hXY := hs.ids_distinct.2.2.1
  have hkeep : ∀ ds : List Subtree, (∀ d ∈ ds, d ∈ pre ++ post) →
      ((ds.map id).filter (· != X.id)).map (fun c => if c = Y.id then m else c) = ds.map id := by
    intro ds hds
    rw [List.filter_eq_self.2, List.map_map]
    · exact List.map_congr_left fun d hd => if_neg (hside d (hds d hd)).2
    · intro c hc
      obtain ⟨d, hd, rfl⟩ := List.mem_map.1 hc
      simpa using (hside d (hds d hd)).1
  rw [hs.children, List.map_append, List.filter_append, List.map_append,
    hkeep pre fun d hd => List.mem_append_left _ hd, List.map_cons, List.map_cons]
  rw [List.filter_cons_of_neg (by simp), List.filter_cons_of_pos (by simpa using Ne.symm hXY), List.map_cons,
    if_pos rfl, hkeep post fun d hd => List.mem_append_right _ hd]

end Subtree.Site

end TileSched
