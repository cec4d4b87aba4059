import TileSched.Proofs.Fusion.Merged
import TileSched.Proofs.Fusion.InPlace
/-! A merge read on the table. The merge's edits (a detached node, the adoptions, the splice)
change the entries of the parent, the merged pair, the new node and the adopted children, and
keep every other one; the table that results realizes the subtree with the merged parent in
place of the old one. With the search for the merge's nodes read on a well-formed forest, every
successful merge keeps the forest well formed, its leaves in order, and has one tile fewer. -/

namespace TileSched

namespace TileTree

/-- The table a merge leaves: a detached node of kind `k` at the end, which adopts the nodes of `L`
with their new relations and then takes the place of `x` and `y` among the children of `p`. -/
def mergeEdit (t : TileTree) (p x y : Nat) (k : NodeKind) (L : List (Nat × AffineMap)) : TileTree :=
  ((t.addDetached k).1.adoptAll t.nodes.size L).splice p x y t.nodes.size

section MergeEdit

variable (t : TileTree) {p x y j c : Nat} (k : NodeKind) {L : List (Nat × AffineMap)}

@[simp] theorem size_mergeEdit : (t.mergeEdit p x y k L).nodes.size = t.nodes.size + 1 := by
  simp [mergeEdit]

@[simp] theorem root_mergeEdit : (t.mergeEdit p x y k L).root = t.root := by
  simp [mergeEdit]

theorem getElem?_mergeEdit_of_ne (hjp : j ≠ p) (hjx : j ≠ x) (hjy : j ≠ y) (hjm : j ≠ t.nodes.size)
    (hjL : j ∉ L.map Prod.fst) : (t.mergeEdit p x y k L).nodes[j]? = t.nodes[j]? := by
  rw [mergeEdit, getElem?_splice_of_ne _ hjp hjx hjy hjm, getElem?_adoptAll_of_not_mem _ hjm hjL,
    getElem?_addDetached, if_neg hjm]

theorem getElem?_mergeEdit_parent (hp : p < t.nodes.size) (hpx : p ≠ x) (hpy : p ≠ y)
    (hpL : p ∉ L.map Prod.fst) :
    (t.mergeEdit p x y k L).nodes[p]? = t.nodes[p]?.map fun n =>
      { n with children := (n.children.filter (· != x)).map fun c => if c = y then t.nodes.size else c } := by
  rw [mergeEdit, getElem?_splice_parent _ hpx hpy (Nat.ne_of_lt hp),
    getElem?_adoptAll_of_not_mem _ (Nat.ne_of_lt hp) hpL, getElem?_addDetached, if_neg (Nat.ne_of_lt hp)]

theorem getElem?_mergeEdit_new (hx : x < t.nodes.size) (hy : y < t.nodes.size) (hp : p < t.nodes.size)
    (hmL : t.nodes.size ∉ L.map Prod.fst) :
    (t.mergeEdit p x y k L).nodes[t.nodes.size]? =
      some { kind := k, parent := some p, children := L.map Prod.fst } := by
  rw [mergeEdit, getElem?_splice_new _ (Nat.ne_of_gt hx) (Nat.ne_of_gt hy) (Nat.ne_of_gt hp),
    getElem?_adoptAll_parent _ hmL, getElem?_addDetached, if_pos rfl]
  rfl

theorem getElem?_mergeEdit_adopted (hL : (L.map Prod.fst).Nodup) (hmL : t.nodes.size ∉ L.map Prod.fst)
    {r : AffineMap} (hc : (c, r) ∈ L) (hcp : c ≠ p) (hcx : c ≠ x) (hcy : c ≠ y) (hcm : c ≠ t.nodes.size) :
    (t.mergeEdit p x y k L).nodes[c]? =
      t.nodes[c]?.map fun n => { n with kind := n.kind.setRelation r, parent := some t.nodes.size } := by
  rw [mergeEdit, getElem?_splice_of_ne _ hcp hcx hcy hcm, getElem?_adoptAll_child _ hL hmL hc,
    getElem?_addDetached, if_neg hcm]

end MergeEdit

end TileTree

namespace TileTree.Realizes

variable {t : TileTree} {S P X Y : Subtree} {pre post : List Subtree} {L : List (Nat × AffineMap)}

theorem merged (hr : t.Realizes S) (hs : Subtree.Site S P X Y pre post L) (k : NodeKind) :
    (t.mergeEdit P.id X.id Y.id k L).Realizes (P.merged pre post X Y t.nodes.size k L) := by
  obtain ⟨hPX, hPY, hXY, hPL, hXL, hYL, hLnd⟩ := hs.ids_distinct
  have hPr := hr.sub hs.parent
  have hlt : ∀ j ∈ P.ids, j < t.nodes.size := fun j hj => hr.lt_size j (Subtree.ids_sub hs.parent j hj)
  have hPlt := hlt P.id (Subtree.id_mem_ids P)
  have hXlt := hlt X.id (hs.touched_mem (Or.inr (Or.inl rfl)))
  have hYlt := hlt Y.id (hs.touched_mem (Or.inr (Or.inr (Or.inl rfl))))
  have hmL : t.nodes.size ∉ L.map Prod.fst := fun h =>
    Nat.lt_irrefl _ (hlt _ (hs.touched_mem (Or.inr (Or.inr (Or.inr h)))))
  -- every other position of the parent keeps its entry
  have hkeep : ∀ j ∈ P.ids, j ≠ P.id ∧ j ≠ X.id ∧ j ≠ Y.id ∧ j ∉ L.map Prod.fst →
      (t.mergeEdit P.id X.id Y.id k L).nodes[j]? = t.nodes[j]? := fun j hj h =>
    t.getElem?_mergeEdit_of_ne k h.1 h.2.1 h.2.2.1 (Nat.ne_of_lt (hlt j hj)) h.2.2.2
  have hnew := t.getElem?_mergeEdit_new k hXlt hYlt hPlt hmL (p := P.id) (L := L)
  obtain ⟨nP, hnP, hkP, hchP⟩ := hPr.entry
  have hentry : (t.mergeEdit P.id X.id Y.id k L).nodes[P.id]? = some { nP with children :=
      ((nP.children.filter (· != X.id)).map fun c => if c = Y.id then t.nodes.size else c) } := by
    rw [t.getElem?_mergeEdit_parent k hPlt hPX hPY hPL, hnP]
    rfl
  rw [Subtree.merged]
  refine .node hentry hkP ?_ (fun c hc => ?_) (fun c hc => ?_)
  · rw [hchP, hs.splice_children, List.map_append, List.map_cons, Subtree.id_node]
  · simp only [List.mem_append, List.mem_cons] at hc
    rcases hc with hc | rfl | hc
    rotate_left
    · exact ⟨_, hnew, rfl⟩
    all_goals
      have hd : c ∈ pre ++ post := by simp [hc]
      obtain ⟨-, m, hm, hmp⟩ := hPr.child (hs.mem_side hd).1
      exact ⟨m, (hkeep c.id (Subtree.ids_sub (Subtree.mem_subs_of_mem_children (hs.mem_side hd).1) _
        (Subtree.id_mem_ids c)) (hs.side_untouched hd (Subtree.id_mem_ids c))).trans hm, hmp⟩
  · simp only [List.mem_append, List.mem_cons] at hc
    rcases hc with hc | rfl | hc
    rotate_left
    · -- the new node adopts the children of the pair, each with its new relation and parent
      refine .node hnew rfl ?_ (fun c' hc' => ?_) (fun c' hc' => ?_)
      · rw [Subtree.map_adopted (fun _ _ => rfl) hs.length_le, hs.adopted]
      all_goals
        obtain ⟨⟨c, e⟩, he, rfl⟩ := List.mem_map.1 hc'
        have hce : e.1 = c.id := Subtree.fst_of_mem_zip hs.adopted he
        have hcXY : c ∈ X.children ++ Y.children := (List.of_mem_zip he).1
        have hcL : (c.id, e.2) ∈ L := hce ▸ (List.of_mem_zip he).2
        have hcids : c.id ∈ L.map Prod.fst := List.mem_map_of_mem (f := Prod.fst) hcL
        have hcP : c ∈ P.subs := by
          rcases List.mem_append.1 hcXY with h | h
          · exact Subtree.subs_trans (Subtree.mem_subs_of_mem_children hs.mem_left)
              (Subtree.mem_subs_of_mem_children h)
          · exact Subtree.subs_trans (Subtree.mem_subs_of_mem_children hs.mem_right)
              (Subtree.mem_subs_of_mem_children h)
        have hcS : c ∈ S.subs := Subtree.subs_trans hs.parent hcP
        have hgP : ∀ g ∈ c.children, ∀ j ∈ g.ids, j ∈ P.ids := fun g hg =>
          Subtree.ids_sub (Subtree.subs_trans hcP (Subtree.mem_subs_of_mem_children hg))
        obtain ⟨nc, hnc, hkc, hchc⟩ := (hr.sub hcS).entry
        have hentry : (t.mergeEdit P.id X.id Y.id k L).nodes[c.id]? =
            some { nc with kind := nc.kind.setRelation e.2, parent := some t.nodes.size } := by
          rw [t.getElem?_mergeEdit_adopted k hLnd hmL hcL (fun h : c.id = P.id => hPL (h ▸ hcids))
            (fun h : c.id = X.id => hXL (h ▸ hcids)) (fun h : c.id = Y.id => hYL (h ▸ hcids))
            (Nat.ne_of_lt (hr.lt_size _ (List.mem_map_of_mem hcS))), hnc]
          rfl
      · exact ⟨_, hentry, rfl⟩
      · refine .node hentry (by rw [hkc]) hchc (fun g hg => ?_) fun g hg => ?_
        · obtain ⟨-, m, hm, hmp⟩ := (hr.sub hcS).child hg
          exact ⟨m, (hkeep g.id (hgP g hg _ (Subtree.id_mem_ids g))
            (hs.below_untouched hcXY hg (Subtree.id_mem_ids g))).trans hm, hmp⟩
        · exact ((hr.sub hcS).child hg).1.congr fun j hj =>
            hkeep j (hgP g hg j hj) (hs.below_untouched hcXY hg hj)
    all_goals
      have hd : c ∈ pre ++ post := by simp [hc]
      have hdP := (hs.mem_side hd).1
      exact (hPr.child hdP).1.congr fun j hj =>
        hkeep j (Subtree.ids_sub (Subtree.mem_subs_of_mem_children hdP) j hj) (hs.side_untouched hd hj)

end TileTree.Realizes

namespace TileTree.Forest

variable {t : TileTree} {top : Nat} {S P X Y : Subtree} {pre post : List Subtree} {L : List (Nat × AffineMap)}

theorem merged (hF : t.Forest top S) (hs : Subtree.Site S P X Y pre post L) {l : Nat} {xn yn kn : TileNode}
    (hxn : X.kind = .tile xn) (hyn : Y.kind = .tile yn) (hxl : xn.level = l) (hyl : yn.level = l)
    (hkn : kn.level = l) :
    (t.mergeEdit P.id X.id Y.id (.tile kn) L).Forest top
      (S.replace P.id (P.merged pre post X Y t.nodes.size (.tile kn) L)) := by
  obtain ⟨hPX, hPY, hXY, hPL, hXL, hYL, hLnd⟩ := hs.ids_distinct
  have hr := hF.realizes
  have hlt : ∀ j ∈ S.ids, j < t.nodes.size := hr.lt_size
  have hPlt := hlt P.id (Subtree.ids_sub hs.parent _ (Subtree.id_mem_ids P))
  obtain ⟨nP, hnP, -, -⟩ := (hr.sub hs.parent).entry
  have hparent : (t.mergeEdit P.id X.id Y.id (.tile kn) L).nodes[P.id]?.map (·.parent) = some nP.parent := by
    rw [t.getElem?_mergeEdit_parent _ hPlt hPX hPY hPL, hnP]
    rfl
  -- positions outside the parent keep their entries
  have hkeep : ∀ j ∈ S.ids, j ∉ P.ids → (t.mergeEdit P.id X.id Y.id (.tile kn) L).nodes[j]? = t.nodes[j]? :=
    fun j hj hjP => t.getElem?_mergeEdit_of_ne _ (fun h => hjP (hs.touched_mem (Or.inl h)))
      (fun h => hjP (hs.touched_mem (Or.inr (Or.inl h)))) (fun h => hjP (hs.touched_mem (Or.inr (Or.inr (Or.inl h)))))
      (Nat.ne_of_lt (hlt j hj)) fun h => hjP (hs.touched_mem (Or.inr (Or.inr (Or.inr h))))
  let P' := P.merged pre post X Y t.nodes.size (.tile kn) L
  obtain ⟨Z, hperm, hZ⟩ := Subtree.ids_merged_perm (m := t.nodes.size) (k := .tile kn) hs.children hs.length_le
  refine ⟨hr.replace hs.nodup hs.parent (hr.merged hs _) rfl hkeep fun n hn => ?_, ?_,
    Subtree.nodup_replace hs.nodup hs.parent P' hperm hZ fun h => Nat.lt_irrefl _ (hlt _ h), ?_,
    (Subtree.kind_replace hs.nodup hs.parent P' rfl).trans hF.scope, ?_⟩
  · rw [hnP] at hn
    cases hn
    obtain ⟨n', hn', hnp⟩ := Option.map_eq_some_iff.1 hparent
    exact ⟨n', hn', hnp⟩
  · rw [Subtree.id_replace S (p := P.id) (P := P') rfl, hF.root, root_mergeEdit]
  · -- the root keeps its parent: it is the merge's parent, whose parent stays, or untouched
    have hroot := hF.parent_root
    rw [← hF.root] at hroot
    rw [root_mergeEdit, ← hF.root]
    by_cases hSP : S.id ∈ P.ids
    · have hPS := Subtree.eq_of_id_mem hs.nodup hs.parent hSP
      obtain ⟨n', hn', hnp⟩ := Option.map_eq_some_iff.1 hparent
      rw [← hPS] at hroot ⊢
      rw [parent_of_getElem? hn', hnp, ← parent_of_getElem? hnP, hroot]
    · obtain ⟨nS, hnS, -⟩ := hr.entry
      rw [parent_of_getElem? ((hkeep S.id (Subtree.id_mem_ids S) hSP).trans hnS), ← parent_of_getElem? hnS,
        hroot]
  · intro c' hc'
    by_cases hPS : P = S
    · -- a merge of two top trees: the new tile is a top tree
      subst hPS
      rw [Subtree.replace_self] at hc'
      simp only [Subtree.merged, Subtree.children_node, List.mem_append, List.mem_cons] at hc'
      rcases hc' with hc' | rfl | hc'
      rotate_left
      · obtain ⟨⟨n, hn, hnl⟩, hXt⟩ := hF.tops X hs.mem_left
        rw [hxn] at hn
        cases hn
        exact ⟨⟨kn, rfl, by omega⟩,
          Subtree.tiled_mergedNode hXt (hF.tops Y hs.mem_right).2 hxn hyn hxl hyl hkn⟩
      all_goals exact hF.tops c' (hs.children ▸ by simp [hc'])
    · have hPid : P.id ≠ S.id := fun h => hPS (Subtree.eq_of_id_eq hs.nodup hs.parent (Subtree.self_mem_subs S) h)
      rw [← Subtree.eta S, Subtree.replace_node, if_neg (Ne.symm hPid)] at hc'
      obtain ⟨c, hc, rfl⟩ := List.mem_map.1 hc'
      have hcS := Subtree.mem_subs_of_mem_children hc
      have hcnd := Subtree.nodup_of_mem_subs hs.nodup hcS
      by_cases hPc : P ∈ c.subs
      · refine ⟨(Subtree.kind_replace hcnd hPc P' rfl).symm ▸ (hF.tops c hc).1, ?_⟩
        exact (hF.tops c hc).2.replace hcnd hPc fun _ hP => hP.merged hs.children hxn hyn hxl hyl hkn
      · rw [Subtree.replace_of_not_mem P' (Subtree.id_not_mem_of_not_mem_subs hs.nodup hs.parent hcS hPc)]
        exact hF.tops c hc

end TileTree.Forest

namespace TileTree

theorem exists_of_adjacentIn {x y : Nat} : ∀ {xs : List Nat}, adjacentIn x y xs = true →
    ∃ pre post, xs = pre ++ x :: y :: post
  | a :: b :: rest, h => by
    rw [adjacentIn, Bool.or_eq_true, Bool.and_eq_true, beq_iff_eq, beq_iff_eq] at h
    rcases h with ⟨rfl, rfl⟩ | h
    · exact ⟨[], rest, rfl⟩
    · obtain ⟨pre, post, hxs⟩ := exists_of_adjacentIn h
      exact ⟨a :: pre, post, by rw [hxs]; rfl⟩
  | [], h => nomatch h
  | [_], h => nomatch h

end TileTree

theorem map_fst_of_forall₂ {α β : Type} {P : α → α × β → Prop} :
    ∀ {xs : List α} {L : List (α × β)}, List.Forall₂ (fun x e => e.1 = x ∧ P x e) xs L → L.map Prod.fst = xs
  | _, _, .nil => rfl
  | _, _, .cons h hs => by rw [List.map_cons, h.1, map_fst_of_forall₂ hs]

namespace MergePoint

variable {mp : MergePoint} {t : TileTree}

theorem locate_eq_ok {at_ : MergeSite} (h : mp.locate t = .ok at_) :
    (∃ pl o, t.findOp t.root mp.producer = .ok (some pl) ∧ t.parent pl = .ok o ∧
      t.tileAtLevel mp.level t.fuel o = .ok (some at_.x)) ∧
    (∃ cl o, t.findOp t.root mp.consumer = .ok (some cl) ∧ t.parent cl = .ok o ∧
      t.tileAtLevel mp.level t.fuel o = .ok (some at_.y)) ∧
    at_.x ≠ at_.y ∧ t.parent at_.x = .ok (some at_.parent) ∧ t.parent at_.y = .ok (some at_.parent) ∧
    ∃ cs, t.children at_.parent = .ok cs ∧ TileTree.adjacentIn at_.x at_.y cs = true := by
  unfold locate at h
  -- each lookup returned a value, and each check passed
  obtain ⟨opl, hpl, h⟩ := bind_eq_ok.1 h
  rcases opl with _ | pl
  · nomatch h
  dsimp only at h
  obtain ⟨ocl, hcl, h⟩ := bind_eq_ok.1 h
  rcases ocl with _ | cl
  · nomatch h
  dsimp only at h
  obtain ⟨ox, hx, h⟩ := bind_eq_ok.1 h
  rcases ox with _ | x
  · nomatch h
  dsimp only at h
  obtain ⟨oy, hy, h⟩ := bind_eq_ok.1 h
  rcases oy with _ | y
  · nomatch h
  dsimp only at h
  split_ifs at h with hxy
  · nomatch h
  obtain ⟨py, hpy, h⟩ := bind_eq_ok.1 h
  obtain ⟨px, hpx, h⟩ := bind_eq_ok.1 h
  split at h
  · rename_i p hp
    obtain ⟨cs, hcs, h⟩ := bind_eq_ok.1 h
    split_ifs at h with hadj
    · nomatch h
    obtain rfl := (pure_eq_ok.1 h).symm
    obtain ⟨ho, hxp⟩ := Option.filter_eq_some_iff.1 hp
    subst ho
    obtain ⟨ox, hox, hx⟩ := bind_eq_ok.1 (mapError_eq_ok.1 hx)
    obtain ⟨oy, hoy, hy⟩ := bind_eq_ok.1 (mapError_eq_ok.1 hy)
    refine ⟨⟨pl, ox, mapError_eq_ok.1 hpl, hox, hx⟩, ⟨cl, oy, mapError_eq_ok.1 hcl, hoy, hy⟩, hxy,
      ?_, mapError_eq_ok.1 hpy, cs, mapError_eq_ok.1 hcs, by simpa using hadj⟩
    rw [mapError_eq_ok.1 hpx]
    simpa using hxp
  · nomatch h

theorem apply_eq_ok_adopts {g : Dataflow} {t' : TileTree} (h : TreeEdit.Runs (mp.apply g) t () t') :
    ∃ at_ R yn LX LY, mp.locate t = .ok at_ ∧ mp.deriveRelation t g at_ = .ok R ∧
      t.kind at_.y = .ok (.tile yn) ∧
      (∃ xs, t.children at_.x = .ok xs ∧ List.Forall₂ (fun c e =>
        e.1 = c ∧ ∃ r, t.relation c = .ok (some r) ∧ R.compose r = .ok e.2) xs LX) ∧
      (∃ ys, t.children at_.y = .ok ys ∧ List.Forall₂ (fun c e => e.1 = c ∧ t.relation c = .ok (some e.2)) ys LY) ∧
      t' = t.mergeEdit at_.parent at_.x at_.y (.tile { yn with level := mp.level }) (LX ++ LY) := by
  unfold apply at h
  -- the checks read the tree as it was and returned values
  rw [TreeEdit.runs_get_bind] at h
  obtain ⟨at_, hat, h⟩ := TreeEdit.runs_lift_bind.1 h
  obtain ⟨R, hR, h⟩ := TreeEdit.runs_lift_bind.1 h
  obtain ⟨k, hk, h⟩ := TreeEdit.runs_lift_bind.1 h
  rcases k with _ | yn | o
  · exact absurd h TreeEdit.not_runs_throw
  rotate_left
  · exact absurd h TreeEdit.not_runs_throw
  obtain ⟨LX, hLX, h⟩ := TreeEdit.runs_lift_bind.1 h
  obtain ⟨LY, hLY, h⟩ := TreeEdit.runs_lift_bind.1 h
  -- then the edits: a detached node, the adoptions, the splice
  obtain ⟨m, t₁, hm, h⟩ := TreeEdit.runs_bind.1 h
  obtain ⟨_, t₂, h₁, h₂⟩ := TreeEdit.runs_bind.1 h
  rw [TreeEdit.runs_modifyGet] at hm
  rw [TreeEdit.runs_modify] at h₁ h₂
  obtain ⟨rfl, rfl⟩ := Prod.mk.inj hm.symm
  obtain ⟨xs, hxs, hLX⟩ := bind_eq_ok.1 hLX
  obtain ⟨ys, hys, hLY⟩ := bind_eq_ok.1 hLY
  refine ⟨at_, R, yn, LX, LY, hat, hR, mapError_eq_ok.1 hk, ⟨xs, mapError_eq_ok.1 hxs, ?_⟩,
    ⟨ys, mapError_eq_ok.1 hys, ?_⟩, by rw [h₂, h₁]; rfl⟩
  -- every adopted node is paired with its new relation
  · refine (mapM_ok_forall₂ hLX).imp fun c e hc => ?_
    obtain ⟨or, hor, hc⟩ := bind_eq_ok.1 hc
    rcases or with _ | r
    · nomatch hc
    obtain ⟨r', hr', hc⟩ := bind_eq_ok.1 hc
    rw [← pure_eq_ok.1 hc]
    exact ⟨rfl, r, mapError_eq_ok.1 hor, mapError_eq_ok.1 hr'⟩
  · refine (mapM_ok_forall₂ hLY).imp fun c e hc => ?_
    obtain ⟨or, hor, hc⟩ := bind_eq_ok.1 hc
    rcases or with _ | r
    · nomatch hc
    rw [← pure_eq_ok.1 hc]
    exact ⟨rfl, mapError_eq_ok.1 hor⟩

theorem apply_eq_ok {g : Dataflow} {t' : TileTree} (h : TreeEdit.Runs (mp.apply g) t () t') :
    ∃ at_ yn LX LY, mp.locate t = .ok at_ ∧ t.kind at_.y = .ok (.tile yn) ∧
      (∃ xs, t.children at_.x = .ok xs ∧ LX.map Prod.fst = xs) ∧
      (∃ ys, t.children at_.y = .ok ys ∧ LY.map Prod.fst = ys) ∧
      t' = t.mergeEdit at_.parent at_.x at_.y (.tile { yn with level := mp.level }) (LX ++ LY) := by
  obtain ⟨at_, R, yn, LX, LY, hat, -, hky, ⟨xs, hxs, hLX⟩, ⟨ys, hys, hLY⟩, rfl⟩ := apply_eq_ok_adopts h
  exact ⟨at_, yn, LX, LY, hat, hky, ⟨xs, hxs, map_fst_of_forall₂ hLX⟩, ⟨ys, hys, map_fst_of_forall₂ hLY⟩, rfl⟩

variable {top : Nat} {S : Subtree}

theorem locate_site {at_ : MergeSite} (hF : t.Forest top S) (h : mp.locate t = .ok at_) :
    ∃ P X Y pre post, P ∈ S.subs ∧ P.children = pre ++ X :: Y :: post ∧ P.id = at_.parent ∧
      X.id = at_.x ∧ Y.id = at_.y ∧ (∃ xn, X.kind = .tile xn ∧ xn.level = mp.level) ∧
      (∃ yn, Y.kind = .tile yn ∧ yn.level = mp.level) := by
  obtain ⟨⟨pl, o, hpl, ho, hx⟩, ⟨cl, o', hcl, ho', hy⟩, -, hpx, hpy, cs, hcs, hadj⟩ := locate_eq_ok h
  have hr := hF.realizes
  have hroot : t.parent S.id = .ok none := hF.root ▸ hF.parent_root
  -- the search starts from the parent of a leaf of the forest, inside the forest
  have hstart : ∀ {op j}, t.findOp t.root op = .ok (some j) → ∀ o, t.parent j = .ok o → ∀ p ∈ o, p ∈ S.ids := by
    intro op j hj o ho p hp
    rw [← hF.root, hr.findOp_eq hF.nodup] at hj
    obtain ⟨⟨a, j'⟩, he, rfl⟩ := Option.map_eq_some_iff.1 (Except.ok.inj hj)
    obtain ⟨Q, hQ, hQid, -⟩ := Subtree.mem_leaves.1 (List.mem_of_find?_eq_some he)
    obtain ⟨o'', ho'', hmem⟩ := hr.parent_mem hroot hQ
    rw [hQid, ho] at ho''
    cases ho''
    exact hmem p hp
  obtain ⟨X, hX, hXid, xn, hxn, hxl⟩ := hr.tileAtLevel_mem hroot mp.level t.fuel o (hstart hpl o ho) hx
  obtain ⟨Y, hY, hYid, yn, hyn, hyl⟩ := hr.tileAtLevel_mem hroot mp.level t.fuel o' (hstart hcl o' ho') hy
  have hne : ∀ {Q : Subtree} {n : TileNode}, Q.kind = .tile n → Q ≠ S := fun hQ h => by
    rw [h, hF.scope] at hQ
    nomatch hQ
  obtain ⟨P, hP, hPid, hXP⟩ := hr.parent_eq_some hX (hne hxn) (hXid ▸ hpx)
  obtain ⟨P₂, hP₂, hP₂id, hYP⟩ := hr.parent_eq_some hY (hne hyn) (hYid ▸ hpy)
  obtain rfl := Subtree.eq_of_id_eq hF.nodup hP hP₂ (hPid.trans hP₂id.symm)
  -- the children of the parent, read in the table, place the pair side by side
  have hch := (hr.sub hP).children_eq
  rw [hPid, hcs] at hch
  obtain ⟨pre', post', hcs'⟩ := TileTree.exists_of_adjacentIn hadj
  rw [Except.ok.inj hch] at hcs'
  obtain ⟨pre, l₂, hsplit, -, hl₂⟩ := List.map_eq_append_iff.1 hcs'
  obtain ⟨X', l₃, rfl, hX'id, hl₃⟩ := List.map_eq_cons_iff.1 hl₂
  obtain ⟨Y', post, rfl, hY'id, -⟩ := List.map_eq_cons_iff.1 hl₃
  have hmem : ∀ Q ∈ P.children, Q ∈ S.subs := fun Q hQ =>
    Subtree.subs_trans hP (Subtree.mem_subs_of_mem_children hQ)
  obtain rfl := Subtree.eq_of_id_eq hF.nodup (hmem X' (by simp [hsplit])) hX (hX'id.trans hXid.symm)
  obtain rfl := Subtree.eq_of_id_eq hF.nodup (hmem Y' (by simp [hsplit])) hY (hY'id.trans hYid.symm)
  exact ⟨P, X', Y', pre, post, hP, hsplit, hPid, hXid, hYid, ⟨xn, hxn, hxl⟩, ⟨yn, hyn, hyl⟩⟩

theorem apply_site {g : Dataflow} {t' : TileTree} (hF : t.Forest top S) (h : TreeEdit.Runs (mp.apply g) t () t') :
    ∃ P X Y pre post at_ R xn yn LX LY, Subtree.Site S P X Y pre post (LX ++ LY) ∧ mp.locate t = .ok at_ ∧
      at_.parent = P.id ∧ at_.x = X.id ∧ at_.y = Y.id ∧ mp.deriveRelation t g at_ = .ok R ∧
      X.kind = .tile xn ∧ xn.level = mp.level ∧ Y.kind = .tile yn ∧ yn.level = mp.level ∧
      List.Forall₂ (fun c e => ∃ r, c.kind.relation? = some r ∧ R.compose r = .ok e.2) X.children LX ∧
      List.Forall₂ (fun c e => c.kind.relation? = some e.2) Y.children LY ∧
      t' = t.mergeEdit P.id X.id Y.id (.tile { yn with level := mp.level }) (LX ++ LY) := by
  obtain ⟨at_, R, yn, LX, LY, hloc, hR, hky, ⟨xs, hxs, hLX⟩, ⟨ys, hys, hLY⟩, rfl⟩ := apply_eq_ok_adopts h
  obtain ⟨P, X, Y, pre, post, hP, hch, hPid, hXid, hYid, ⟨xn, hxn, hxl⟩, ⟨yn', hyn', hyl⟩⟩ :=
    locate_site hF hloc
  have hr := hF.realizes
  have hXS : X ∈ S.subs := Subtree.subs_trans hP (Subtree.mem_subs_of_mem_children (by simp [hch]))
  have hYS : Y ∈ S.subs := Subtree.subs_trans hP (Subtree.mem_subs_of_mem_children (by simp [hch]))
  -- the consumer tile and the children read in the table are the subtrees'
  rw [← hYid, hr.kind_of_mem hYS, hyn'] at hky
  cases hky
  rw [← hXid, (hr.sub hXS).children_eq] at hxs
  rw [← hYid, (hr.sub hYS).children_eq] at hys
  cases hxs
  cases hys
  have hfst : (LX ++ LY).map Prod.fst = (X.children ++ Y.children).map Subtree.id := by
    rw [List.map_append, List.map_append, map_fst_of_forall₂ hLX, map_fst_of_forall₂ hLY]
  -- below a subtree of the forest, the table holds each child's own relation
  have hrel : ∀ {Q : Subtree}, Q ∈ S.subs → ∀ c ∈ Q.children, t.relation c.id = .ok c.kind.relation? :=
    fun hQ c hc => by
      rw [TileTree.relation, hr.kind_of_mem (Subtree.subs_trans hQ (Subtree.mem_subs_of_mem_children hc))]
      rfl
  rw [List.forall₂_map_left_iff] at hLX hLY
  refine ⟨P, X, Y, pre, post, at_, R, xn, yn, LX, LY, ⟨hF.nodup, hP, hch, hfst⟩, hloc, hPid.symm, hXid.symm,
    hYid.symm, hR, hxn, hxl, hyn', hyl, ?_, ?_, by rw [hPid, hXid, hYid]⟩
  · refine ((List.forall₂_and_left _ _).2 ⟨hrel hXS, hLX⟩).imp fun c e he => ?_
    obtain ⟨hc, -, r, hr, hc'⟩ := he
    rw [hc] at hr
    exact ⟨r, Except.ok.inj hr, hc'⟩
  · refine ((List.forall₂_and_left _ _).2 ⟨hrel hYS, hLY⟩).imp fun c e he => ?_
    obtain ⟨hc, -, hr⟩ := he
    rw [hc] at hr
    exact Except.ok.inj hr

theorem apply_forest {g : Dataflow} {t' : TileTree} (hF : t.Forest top S)
    (h : TreeEdit.Runs (mp.apply g) t () t') :
    ∃ S', t'.Forest top S' ∧ S'.leaves = S.leaves ∧ S'.tileCount + 1 = S.tileCount := by
  obtain ⟨P, X, Y, pre, post, -, -, xn, yn, LX, LY, hs, -, -, -, -, -, hxn, hxl, hyn, hyl, -, -, rfl⟩ :=
    apply_site hF h
  have htile : ∀ {Q : Subtree} {n : TileNode}, Q.kind = .tile n → Q.kind.isTile := fun h => by rw [h]; rfl
  refine ⟨_, hF.merged hs hxn hyn hxl hyl rfl,
    Subtree.leaves_replace hF.nodup hs.parent _
      (Subtree.leaves_merged hs.children (htile hxn) (htile hyn) rfl hs.length_le), ?_⟩
  have h₁ := Subtree.tileCount_replace hF.nodup hs.parent
    (P.merged pre post X Y t.nodes.size (.tile { yn with level := mp.level }) (LX ++ LY))
  have h₂ := Subtree.tileCount_merged (m := t.nodes.size) (k := .tile { yn with level := mp.level })
    hs.children (htile hxn) (htile hyn) rfl hs.length_le
  omega

end MergePoint

section Order

/-! Two merges that both succeed in either order need not give forests of one key: relations
that merges derive can differ in their symbols while meaning the same. -/

def unitRange (syms : List Int) : AffineRange := ⟨⟨0, [1], syms⟩, ⟨0, [1], syms⟩⟩

/-- A chain `a → b → c`: a reduction `a` writing a scalar, read whole by `b`, whose output `c`
reads through a map with one unused symbol. -/
def symbolChain : Dataflow where
  name := "g"
  ops := [{ id := 0, name := "a", domainBounds := [4], write := ⟨⟨1, 0, []⟩, 4⟩, kernel := .reduction },
    { id := 1, name := "b", domainBounds := [8], reads := [⟨⟨1, 0, []⟩, 4, some 0⟩],
      write := ⟨⟨1, 0, [unitRange []]⟩, 4⟩, kernel := .other },
    { id := 2, name := "c", domainBounds := [8], reads := [⟨⟨1, 1, [unitRange [0]]⟩, 4, some 1⟩],
      write := ⟨⟨1, 0, [unitRange []]⟩, 4⟩, kernel := .other }]

namespace StructuralKey

def innerRelation? : StructuralKey → Option AffineMap
  | .scope (.tile _ _ _ _ (.tile _ _ r _ _ :: _) :: _) => some r
  | _ => none

end StructuralKey

/-- Merging `a` into `b` and then `b` into `c` at the top level, or the two merges the other way
round: both succeed, and the forests' keys differ. The tile of `a` inside the merged tile carries a
relation with one symbol in the first order and none in the second. -/
theorem merge_order_changes_key :
    ∃ k₁ k₂,
      (TileGraph.new symbolChain 2 >>= (·.merge ⟨0, 1, 2⟩) >>= (·.merge ⟨1, 2, 2⟩) >>= TileGraph.structuralKey) =
        .ok k₁ ∧
      (TileGraph.new symbolChain 2 >>= (·.merge ⟨1, 2, 2⟩) >>= (·.merge ⟨0, 1, 2⟩) >>= TileGraph.structuralKey) =
        .ok k₂ ∧
      k₁ ≠ k₂ := by
  have h : ((TileGraph.new symbolChain 2 >>= (·.merge ⟨0, 1, 2⟩) >>= (·.merge ⟨1, 2, 2⟩) >>=
      TileGraph.structuralKey) >>= fun k₁ =>
      (TileGraph.new symbolChain 2 >>= (·.merge ⟨1, 2, 2⟩) >>= (·.merge ⟨0, 1, 2⟩) >>=
        TileGraph.structuralKey) >>= fun k₂ =>
      pure (k₁.innerRelation?, k₂.innerRelation?)).toOption =
      some (some ⟨1, 1, [⟨⟨0, [0], [0]⟩, ⟨4, [0], [0]⟩⟩]⟩, some ⟨1, 0, [⟨⟨0, [0], []⟩, ⟨4, [0], []⟩⟩]⟩) := by
    decide +kernel
  revert h
  cases (TileGraph.new symbolChain 2 >>= (·.merge ⟨0, 1, 2⟩) >>= (·.merge ⟨1, 2, 2⟩) >>= TileGraph.structuralKey) with
  | error e =>
    intro h
    cases h
  | ok k₁ =>
    cases (TileGraph.new symbolChain 2 >>= (·.merge ⟨1, 2, 2⟩) >>= (·.merge ⟨0, 1, 2⟩) >>= TileGraph.structuralKey) with
    | error e =>
    intro h
    cases h
    | ok k₂ =>
      intro h
      refine ⟨k₁, k₂, rfl, rfl, fun heq => ?_⟩
      subst heq
      obtain ⟨h₁, h₂⟩ := Prod.mk.inj (Option.some.inj h)
      exact absurd (h₁.symm.trans h₂) (by decide)

end Order

end TileSched
