import Mathlib
import TileSched.Proofs.Results
import TileSched.Tree.Basic
/-! A node table read as a tree. A table realizes a subtree at a node when the node has the
subtree's kind, its children are the roots of the subtree's children in order, and every child
has the node as its parent and realizes its own subtree. The walks of the table then compute
what the subtree says: its preorder, its kinds and its operation leaves, once their fuel covers
its nodes; and a table that agrees with another at a subtree's nodes realizes the subtree too. -/

namespace TileSched

inductive Subtree where
  | node (id : Nat) (kind : NodeKind) (children : List Subtree)
  deriving Inhabited

namespace Subtree

def id : Subtree → Nat
  | node i _ _ => i

def kind : Subtree → NodeKind
  | node _ k _ => k

def children : Subtree → List Subtree
  | node _ _ cs => cs

mutual
def subs : Subtree → List Subtree
  | node i k cs => node i k cs :: subsAll cs

def subsAll : List Subtree → List Subtree
  | [] => []
  | c :: cs => c.subs ++ subsAll cs
end

@[induction_eliminator]
theorem rec' {P : Subtree → Prop} (h : ∀ i k cs, (∀ c ∈ cs, P c) → P (node i k cs)) : ∀ S, P S :=
  go
where
  go : ∀ S, P S
    | node i k cs => h i k cs (goAll cs)
  goAll : ∀ cs : List Subtree, ∀ c ∈ cs, P c
    | [], _, hc => absurd hc List.not_mem_nil
    | c :: cs, c', hc' => (List.mem_cons.1 hc').elim (fun e => e ▸ go c) (goAll cs c')

theorem subsAll_eq (cs : List Subtree) : subsAll cs = cs.flatMap subs := by
  induction cs with
  | nil => rfl
  | cons c cs ih => rw [subsAll, ih, List.flatMap_cons]

@[simp] theorem subs_node (i : Nat) (k : NodeKind) (cs : List Subtree) :
    (node i k cs).subs = node i k cs :: cs.flatMap subs := by
  rw [subs, subsAll_eq]

@[simp] theorem id_node (i : Nat) (k : NodeKind) (cs : List Subtree) : (node i k cs).id = i := rfl

@[simp] theorem kind_node (i : Nat) (k : NodeKind) (cs : List Subtree) : (node i k cs).kind = k := rfl

@[simp] theorem children_node (i : Nat) (k : NodeKind) (cs : List Subtree) :
    (node i k cs).children = cs := rfl

theorem eta (S : Subtree) : node S.id S.kind S.children = S := by
  cases S
  rfl

def ids (S : Subtree) : List Nat := S.subs.map id

theorem ids_node (i : Nat) (k : NodeKind) (cs : List Subtree) :
    (node i k cs).ids = i :: (cs.map ids).flatten := by
  rw [ids, subs_node, List.map_cons, id_node, List.flatMap_def, List.map_flatten, List.map_map]
  rfl

theorem self_mem_subs (S : Subtree) : S ∈ S.subs := by
  cases S
  simp

theorem mem_subs_of_mem_children {S c : Subtree} (hc : c ∈ S.children) : c ∈ S.subs := by
  cases S with
  | node i k cs =>
    rw [subs_node]
    exact List.mem_cons_of_mem _ (List.mem_flatMap.2 ⟨c, hc, self_mem_subs c⟩)

theorem subs_trans {S P Q : Subtree} (hP : P ∈ S.subs) (hQ : Q ∈ P.subs) : Q ∈ S.subs := by
  induction S with
  | _ i k cs ih =>
    rcases List.mem_cons.1 (subs_node i k cs ▸ hP) with rfl | hP
    · exact hQ
    · obtain ⟨c, hc, hPc⟩ := List.mem_flatMap.1 hP
      rw [subs_node]
      exact List.mem_cons_of_mem _ (List.mem_flatMap.2 ⟨c, hc, ih c hc hPc⟩)

theorem id_mem_ids (S : Subtree) : S.id ∈ S.ids := List.mem_map_of_mem (self_mem_subs S)

theorem ids_sub {S P : Subtree} (hP : P ∈ S.subs) : ∀ j ∈ P.ids, j ∈ S.ids := fun j hj => by
  obtain ⟨Q, hQ, rfl⟩ := List.mem_map.1 hj
  exact List.mem_map_of_mem (subs_trans hP hQ)

theorem length_ids_child {S c : Subtree} (hc : c ∈ S.children) : c.ids.length < S.ids.length := by
  cases S with
  | node i k cs =>
    rw [children_node] at hc
    have hle := (List.sublist_flatten_of_mem (List.mem_map_of_mem (f := ids) hc)).length_le
    rw [ids_node, List.length_cons]
    omega

theorem sublist_ids {S P : Subtree} (hP : P ∈ S.subs) : List.Sublist P.ids S.ids := by
  induction S with
  | _ i k cs ih =>
    rcases List.mem_cons.1 (subs_node i k cs ▸ hP) with rfl | hP
    · exact List.Sublist.refl _
    · obtain ⟨c, hc, hPc⟩ := List.mem_flatMap.1 hP
      rw [ids_node]
      exact ((ih c hc hPc).trans (List.sublist_flatten_of_mem (List.mem_map_of_mem hc))).cons i

theorem exists_parent {S Q : Subtree} (hQ : Q ∈ S.subs) (hne : Q ≠ S) :
    ∃ P ∈ S.subs, Q ∈ P.children := by
  induction S with
  | _ i k cs ih =>
    rcases List.mem_cons.1 (subs_node i k cs ▸ hQ) with rfl | hQ
    · exact absurd rfl hne
    · obtain ⟨c, hc, hQc⟩ := List.mem_flatMap.1 hQ
      by_cases hQc' : Q = c
      · subst hQc'
        exact ⟨_, self_mem_subs _, hc⟩
      · obtain ⟨P, hP, hQP⟩ := ih c hc hQc hQc'
        exact ⟨P, subs_trans (mem_subs_of_mem_children hc) hP, hQP⟩

/-! Distinct positions. In a subtree whose positions are distinct, a position names one subtree,
the children own disjoint sets of positions, and no child holds its parent's position. -/

section Nodup

variable {S P Q c d : Subtree}

theorem nodup_of_mem_subs (hnd : S.ids.Nodup) (hP : P ∈ S.subs) : P.ids.Nodup :=
  hnd.sublist (sublist_ids hP)

theorem id_not_mem_child (hnd : S.ids.Nodup) (hc : c ∈ S.children) : S.id ∉ c.ids := by
  cases S with
  | node i k cs =>
    rw [ids_node, List.nodup_cons] at hnd
    exact fun h => hnd.1 (List.mem_flatten.2 ⟨c.ids, List.mem_map_of_mem hc, h⟩)

theorem disjoint_children (hnd : S.ids.Nodup) (hc : c ∈ S.children) (hd : d ∈ S.children)
    (hne : c ≠ d) : ∀ j ∈ c.ids, j ∉ d.ids := by
  cases S with
  | node i k cs =>
    rw [ids_node, List.nodup_cons, List.nodup_flatten, List.pairwise_map] at hnd
    have : Std.Symm fun a b : Subtree => a.ids.Disjoint b.ids := ⟨fun _ _ h _ h₁ h₂ => h h₂ h₁⟩
    exact fun j hj hj' => hnd.2.2.forall hc hd hne hj hj'

theorem eq_of_id_mem (hnd : S.ids.Nodup) (hP : P ∈ S.subs) (hid : S.id ∈ P.ids) : P = S := by
  cases S with
  | node i k cs =>
    rcases List.mem_cons.1 (subs_node i k cs ▸ hP) with rfl | hP
    · rfl
    · obtain ⟨c, hc, hPc⟩ := List.mem_flatMap.1 hP
      exact absurd ((sublist_ids hPc).subset hid) (id_not_mem_child hnd hc)

theorem eq_of_id_eq (hnd : S.ids.Nodup) (hP : P ∈ S.subs) (hQ : Q ∈ S.subs) (hid : P.id = Q.id) :
    P = Q := by
  induction S with
  | _ i k cs ih =>
    rcases List.mem_cons.1 (subs_node i k cs ▸ hP) with rfl | hP'
    · exact (eq_of_id_mem hnd hQ (hid ▸ id_mem_ids Q)).symm
    rcases List.mem_cons.1 (subs_node i k cs ▸ hQ) with rfl | hQ'
    · exact eq_of_id_mem hnd hP (hid ▸ id_mem_ids P)
    obtain ⟨c, hc, hPc⟩ := List.mem_flatMap.1 hP'
    obtain ⟨d, hd, hQd⟩ := List.mem_flatMap.1 hQ'
    by_cases hcd : c = d
    · subst hcd
      exact ih c hc (nodup_of_mem_subs hnd (mem_subs_of_mem_children hc)) hPc hQd
    · exact absurd ((sublist_ids hQd).subset (id_mem_ids Q))
        (disjoint_children hnd hc hd hcd P.id ((sublist_ids hPc).subset (id_mem_ids P)) |> (hid ▸ ·))

theorem id_not_mem_of_not_mem_subs (hnd : S.ids.Nodup) (hP : P ∈ S.subs) (hQ : Q ∈ S.subs)
    (hPQ : P ∉ Q.subs) : P.id ∉ Q.ids := fun h => by
  obtain ⟨R, hR, hRid⟩ := List.mem_map.1 h
  exact hPQ (eq_of_id_eq hnd (subs_trans hQ hR) hP hRid ▸ hR)

end Nodup

/-! Replacing the subtree at one position. -/

mutual
def replace : Subtree → Nat → Subtree → Subtree
  | node i k cs, p, P => if i = p then P else node i k (replaceAll cs p P)

def replaceAll : List Subtree → Nat → Subtree → List Subtree
  | [], _, _ => []
  | c :: cs, p, P => c.replace p P :: replaceAll cs p P
end

theorem replaceAll_eq (cs : List Subtree) (p : Nat) (P : Subtree) :
    replaceAll cs p P = cs.map (·.replace p P) := by
  induction cs with
  | nil => rfl
  | cons c cs ih => rw [replaceAll, ih, List.map_cons]

theorem replace_node (i : Nat) (k : NodeKind) (cs : List Subtree) (p : Nat) (P : Subtree) :
    (node i k cs).replace p P = if i = p then P else node i k (cs.map (·.replace p P)) := by
  rw [replace, replaceAll_eq]

@[simp] theorem replace_self (S P : Subtree) : S.replace S.id P = P := by
  cases S
  rw [id_node, replace_node, if_pos rfl]

theorem replace_of_not_mem {S : Subtree} {p : Nat} (P : Subtree) (h : p ∉ S.ids) : S.replace p P = S := by
  induction S with
  | _ i k cs ih =>
    rw [ids_node, List.mem_cons, not_or] at h
    rw [replace_node, if_neg (Ne.symm h.1)]
    congr 1
    refine (List.map_congr_left fun c hc => ih c hc fun hp => h.2 ?_).trans (List.map_id' cs)
    exact List.mem_flatten.2 ⟨c.ids, List.mem_map_of_mem hc, hp⟩

theorem id_replace (S : Subtree) {p : Nat} {P : Subtree} (h : P.id = p) : (S.replace p P).id = S.id := by
  cases S with
  | node i k cs =>
    rw [replace_node]
    split_ifs with hi
    · rw [h, hi, id_node]
    · rfl

def label (S : Subtree) : Nat × NodeKind := (S.id, S.kind)

@[simp] theorem label_node (i : Nat) (k : NodeKind) (cs : List Subtree) : (node i k cs).label = (i, k) := rfl

theorem ids_eq_map_label (S : Subtree) : S.ids = (S.subs.map label).map Prod.fst := by
  rw [ids, List.map_map]
  rfl

theorem subs_replace {S P : Subtree} (hnd : S.ids.Nodup) (hP : P ∈ S.subs) (P' : Subtree) :
    ∃ A B, S.subs.map label = A ++ P.subs.map label ++ B ∧
      (S.replace P.id P').subs.map label = A ++ P'.subs.map label ++ B := by
  induction S with
  | _ i k cs ih =>
    rcases List.mem_cons.1 (subs_node i k cs ▸ hP) with rfl | hP
    · refine ⟨[], [], by simp, ?_⟩
      rw [id_node, replace_node, if_pos rfl]
      simp
    obtain ⟨c, hc, hPc⟩ := List.mem_flatMap.1 hP
    obtain ⟨pre, post, rfl⟩ := List.append_of_mem hc
    have hnd' := hnd
    rw [ids_node, List.nodup_cons, List.map_append, List.map_cons, List.flatten_append,
      List.flatten_cons] at hnd'
    have hPid : P.id ∈ c.ids := (sublist_ids hPc).subset (id_mem_ids P)
    have hi : i ≠ P.id := fun h => hnd'.1 (List.mem_append_right _ (List.mem_append_left _ (h ▸ hPid)))
    -- the siblings of the child holding the replaced position keep their subtrees
    have hpre : pre.map (·.replace P.id P') = pre := by
      refine (List.map_congr_left fun d hd => replace_of_not_mem P' fun hd' => ?_).trans (List.map_id' pre)
      exact (List.nodup_append.1 hnd'.2).2.2 _ (List.mem_flatten.2 ⟨d.ids, List.mem_map_of_mem hd, hd'⟩)
        _ (List.mem_append_left _ hPid) rfl
    have hpost : post.map (·.replace P.id P') = post := by
      refine (List.map_congr_left fun d hd => replace_of_not_mem P' fun hd' => ?_).trans (List.map_id' post)
      exact (List.nodup_append.1 (List.nodup_append.1 hnd'.2).2.1).2.2 _ hPid
        _ (List.mem_flatten.2 ⟨d.ids, List.mem_map_of_mem hd, hd'⟩) rfl
    obtain ⟨A, B, h₁, h₂⟩ := ih c hc (nodup_of_mem_subs hnd (mem_subs_of_mem_children hc)) hPc
    refine ⟨(i, k) :: (pre.flatMap subs).map label ++ A, B ++ (post.flatMap subs).map label, ?_, ?_⟩
    · simp [h₁]
    · rw [replace_node, if_neg hi, List.map_append, List.map_cons, hpre, hpost]
      simp [h₂]

theorem eq_of_map_id_eq {P : Subtree → Prop} : ∀ {cs cs' : List Subtree},
    (∀ c ∈ cs, ∀ c', P c' → c.id = c'.id → c = c') → (∀ c' ∈ cs', P c') →
      cs.map id = cs'.map id → cs = cs'
  | [], [], _, _, _ => rfl
  | c :: cs, c' :: cs', huniq, hP, h => by
    rw [List.map_cons, List.map_cons, List.cons.injEq] at h
    rw [huniq c List.mem_cons_self c' (hP c' List.mem_cons_self) h.1,
      eq_of_map_id_eq (fun d hd => huniq d (List.mem_cons_of_mem _ hd))
        (fun d hd => hP d (List.mem_cons_of_mem _ hd)) h.2]
  | [], _ :: _, _, _, h => by simp at h
  | _ :: _, [], _, _, h => by simp at h

theorem card_ids_pos (S : Subtree) : 0 < S.ids.toFinset.card :=
  Finset.card_pos.2 ⟨S.id, List.mem_toFinset.2 (id_mem_ids S)⟩

end Subtree

namespace TileTree

/-- Table `t` realizes subtree `S`: the node at `S.id` has `S`'s kind, its children are the roots
of `S`'s children in order, and every child has the node as its parent and realizes its own
subtree. -/
inductive Realizes (t : TileTree) : Subtree → Prop
  | node {i : Nat} {k : NodeKind} {cs : List Subtree} {n : TreeNode} (hn : t.nodes[i]? = some n)
      (hkind : n.kind = k) (hchildren : n.children = cs.map Subtree.id)
      (hparent : ∀ c ∈ cs, ∃ m, t.nodes[c.id]? = some m ∧ m.parent = some i)
      (hsub : ∀ c ∈ cs, Realizes t c) : Realizes t (.node i k cs)

/-- Table `t` holds subtree `S` through its child links: the node at `S.id` has `S`'s kind, its
children are the roots of `S`'s children in order, and every child holds its own subtree. Parent
links are not read and a position may stand at several places of `S`, which then unfolds the
child links from its root; no such subtree exists when they lead back to a node above
(`Unfolds.id_not_mem_child`). -/
inductive Unfolds (t : TileTree) : Subtree → Prop
  | node {i : Nat} {k : NodeKind} {cs : List Subtree} {n : TreeNode} (hn : t.nodes[i]? = some n)
      (hkind : n.kind = k) (hchildren : n.children = cs.map Subtree.id)
      (hsub : ∀ c ∈ cs, Unfolds t c) : Unfolds t (.node i k cs)

namespace Unfolds

variable {t : TileTree} {S : Subtree}

theorem entry (h : t.Unfolds S) :
    ∃ n, t.nodes[S.id]? = some n ∧ n.kind = S.kind ∧ n.children = S.children.map Subtree.id := by
  cases h with
  | node hn hkind hchildren => exact ⟨_, hn, hkind, hchildren⟩

theorem child (h : t.Unfolds S) {c : Subtree} (hc : c ∈ S.children) : t.Unfolds c := by
  cases h with
  | node _ _ _ hsub => exact hsub c hc

theorem sub (h : t.Unfolds S) {P : Subtree} (hP : P ∈ S.subs) : t.Unfolds P := by
  induction h with
  | @node i k cs n hn hkind hchildren hsub ih =>
    rcases List.mem_cons.1 (Subtree.subs_node i k cs ▸ hP) with rfl | hP
    · exact .node hn hkind hchildren hsub
    · obtain ⟨c, hc, hPc⟩ := List.mem_flatMap.1 hP
      exact ih c hc hPc

theorem lt_size (h : t.Unfolds S) : ∀ j ∈ S.ids, j < t.nodes.size := by
  intro j hj
  obtain ⟨P, hP, rfl⟩ := List.mem_map.1 hj
  obtain ⟨n, hn, -⟩ := (h.sub hP).entry
  exact (Array.getElem?_eq_some_iff.1 hn).1

theorem kind_eq (h : t.Unfolds S) : t.kind S.id = .ok S.kind := by
  obtain ⟨n, hn, hkind, -⟩ := h.entry
  rw [TileTree.kind, TileTree.node, entryAt_eq_ok.2 hn, ← hkind]
  rfl

theorem children_eq (h : t.Unfolds S) : t.children S.id = .ok (S.children.map Subtree.id) := by
  obtain ⟨n, hn, -, hchildren⟩ := h.entry
  rw [TileTree.children, TileTree.node, entryAt_eq_ok.2 hn, ← hchildren]
  rfl

theorem unique (h : t.Unfolds S) : ∀ {S'}, t.Unfolds S' → S.id = S'.id → S = S' := by
  induction h with
  | @node i k cs n hn hkind hchildren hsub ih =>
    intro S' h' hid
    cases h' with
    | @node _ k' cs' n' hn' hkind' hchildren' hsub' =>
      rw [Subtree.id_node, Subtree.id_node] at hid
      subst hid
      obtain rfl : n = n' := Option.some.inj (hn.symm.trans hn')
      subst hkind hkind'
      obtain rfl := Subtree.eq_of_map_id_eq (fun c hc c' hc' hid => ih c hc hc' hid) hsub'
        (hchildren.symm.trans hchildren')
      rfl

theorem id_not_mem_child (h : t.Unfolds S) {c : Subtree} (hc : c ∈ S.children) : S.id ∉ c.ids := by
  intro hmem
  obtain ⟨Q, hQ, hQid⟩ := List.mem_map.1 hmem
  -- the subtree held at that position inside `c` would be `S` itself, yet smaller than it
  have hQS : Q = S := ((h.child hc).sub hQ).unique h hQid
  have hle := (Subtree.sublist_ids hQ).length_le
  have hlt := Subtree.length_ids_child hc
  rw [hQS] at hle
  omega

theorem card_child_lt (h : t.Unfolds S) {c : Subtree} (hc : c ∈ S.children) :
    c.ids.toFinset.card < S.ids.toFinset.card := by
  refine Finset.card_lt_card ((Finset.ssubset_iff_of_subset fun j hj => ?_).2 ⟨S.id, ?_, ?_⟩)
  · exact List.mem_toFinset.2
      (Subtree.ids_sub (Subtree.mem_subs_of_mem_children hc) j (List.mem_toFinset.1 hj))
  · exact List.mem_toFinset.2 (Subtree.id_mem_ids S)
  · exact fun hj => h.id_not_mem_child hc (List.mem_toFinset.1 hj)

theorem card_le_size (h : t.Unfolds S) : S.ids.toFinset.card ≤ t.nodes.size :=
  calc S.ids.toFinset.card ≤ (Finset.range t.nodes.size).card :=
        Finset.card_le_card fun j hj => Finset.mem_range.2 (h.lt_size j (List.mem_toFinset.1 hj))
    _ = t.nodes.size := Finset.card_range _

theorem preorderAux_eq (h : t.Unfolds S) :
    ∀ f, S.ids.toFinset.card ≤ f → t.preorderAux f S.id = .ok S.ids := by
  induction h with
  | @node i k cs n hn hkind hchildren hsub ih =>
    intro f hf
    have hS : t.Unfolds (.node i k cs) := .node hn hkind hchildren hsub
    cases f with
    | zero =>
      have := Subtree.card_ids_pos (.node i k cs)
      omega
    | succ f =>
      -- every child holds fewer distinct positions, so the fuel left covers it
      have hsubs : (cs.map Subtree.id).mapM (t.preorderAux f) = .ok (cs.map Subtree.ids) := by
        rw [List.mapM_map]
        exact mapM_eq_ok_map fun c hc => ih c hc f (by have := hS.card_child_lt (c := c) hc; omega)
      have hch := hS.children_eq
      simp only [Subtree.children_node, Subtree.id_node] at hch
      rw [TileTree.preorderAux]
      simp only [Subtree.id_node]
      rw [hch]
      simp only [bind, Except.bind, hsubs, pure, Except.pure, Subtree.ids_node]

end Unfolds

namespace Realizes

variable {t t' : TileTree} {S : Subtree}

theorem unfolds (h : t.Realizes S) : t.Unfolds S := by
  induction h with
  | node hn hkind hchildren _ _ ih => exact .node hn hkind hchildren ih

theorem entry (h : t.Realizes S) :
    ∃ n, t.nodes[S.id]? = some n ∧ n.kind = S.kind ∧ n.children = S.children.map Subtree.id :=
  h.unfolds.entry

theorem child (h : t.Realizes S) {c : Subtree} (hc : c ∈ S.children) :
    t.Realizes c ∧ ∃ m, t.nodes[c.id]? = some m ∧ m.parent = some S.id := by
  cases h with
  | node _ _ _ hparent hsub => exact ⟨hsub c hc, hparent c hc⟩

theorem sub (h : t.Realizes S) {P : Subtree} (hP : P ∈ S.subs) : t.Realizes P := by
  induction h with
  | @node i k cs n _ _ _ _ _ ih =>
    rcases List.mem_cons.1 (Subtree.subs_node i k cs ▸ hP) with rfl | hP
    · exact .node ‹_› ‹_› ‹_› ‹_› ‹_›
    · obtain ⟨c, hc, hPc⟩ := List.mem_flatMap.1 hP
      exact ih c hc hPc

theorem congr (h : t.Realizes S) (hagree : ∀ j ∈ S.ids, t'.nodes[j]? = t.nodes[j]?) : t'.Realizes S := by
  induction h with
  | @node i k cs n hn hkind hchildren hparent _ ih =>
    have hmem : ∀ c ∈ cs, ∀ j ∈ c.ids, j ∈ (Subtree.node i k cs).ids := fun c hc =>
      Subtree.ids_sub (Subtree.mem_subs_of_mem_children hc)
    refine .node ((hagree i (Subtree.id_mem_ids _)).trans hn) hkind hchildren (fun c hc => ?_)
      fun c hc => ih c hc fun j hj => hagree j (hmem c hc j hj)
    rw [hagree c.id (hmem c hc _ (Subtree.id_mem_ids c))]
    exact hparent c hc

theorem lt_size (h : t.Realizes S) : ∀ j ∈ S.ids, j < t.nodes.size := h.unfolds.lt_size

theorem kind_eq (h : t.Realizes S) : t.kind S.id = .ok S.kind := h.unfolds.kind_eq

theorem children_eq (h : t.Realizes S) : t.children S.id = .ok (S.children.map Subtree.id) :=
  h.unfolds.children_eq

theorem parent_eq (h : t.Realizes S) {c : Subtree} (hc : c ∈ S.children) :
    t.parent c.id = .ok (some S.id) := by
  obtain ⟨-, m, hm, hparent⟩ := h.child hc
  rw [TileTree.parent, TileTree.node, entryAt_eq_ok.2 hm, ← hparent]
  rfl

theorem preorderAux_eq (h : t.Realizes S) : ∀ f, S.ids.length ≤ f → t.preorderAux f S.id = .ok S.ids :=
  fun f hf => h.unfolds.preorderAux_eq f (le_trans (List.toFinset_card_le _) hf)

theorem replace (h : t.Realizes S) (hnd : S.ids.Nodup) {P P' : Subtree} (hP : P ∈ S.subs)
    (h' : t'.Realizes P') (hid : P'.id = P.id)
    (hagree : ∀ j ∈ S.ids, j ∉ P.ids → t'.nodes[j]? = t.nodes[j]?)
    (hparent : ∀ m, t.nodes[P.id]? = some m → ∃ m', t'.nodes[P.id]? = some m' ∧ m'.parent = m.parent) :
    t'.Realizes (S.replace P.id P') := by
  induction h with
  | @node i k cs n hn hkind hchildren hpar hsub ih =>
    by_cases hi : i = P.id
    · rw [Subtree.replace_node, if_pos hi]
      exact h'
    obtain ⟨c₀, hc₀, hPc₀⟩ : ∃ c₀ ∈ cs, P ∈ c₀.subs := by
      rcases List.mem_cons.1 (Subtree.subs_node i k cs ▸ hP) with rfl | hP
      · exact absurd rfl hi
      · exact List.mem_flatMap.1 hP
    have hsubc₀ : c₀ ∈ (Subtree.node i k cs).subs := Subtree.mem_subs_of_mem_children hc₀
    have hPid : P.id ∈ c₀.ids := (Subtree.sublist_ids hPc₀).subset (Subtree.id_mem_ids P)
    -- the replaced positions lie in one child
    have hout : ∀ c ∈ cs, c ≠ c₀ → ∀ j ∈ c.ids, j ∉ P.ids := fun c hc hne j hj hjP =>
      Subtree.disjoint_children hnd hc hc₀ hne j hj ((Subtree.sublist_ids hPc₀).subset hjP)
    have hsub' : ∀ c ∈ cs, ∀ j ∈ c.ids, j ∈ (Subtree.node i k cs).ids := fun c hc =>
      Subtree.ids_sub (Subtree.mem_subs_of_mem_children hc)
    rw [Subtree.replace_node, if_neg hi]
    refine .node ?_ hkind ?_ ?_ ?_
    · have hiP : i ∉ P.ids := fun hiP => hi (by
        rw [Subtree.eq_of_id_mem hnd hP hiP, Subtree.id_node])
      rw [hagree i (Subtree.id_mem_ids _) hiP]
      exact hn
    · rw [hchildren, List.map_map]
      exact List.map_congr_left fun c _ => (Subtree.id_replace c hid).symm
    · intro c' hc'
      obtain ⟨c, hc, rfl⟩ := List.mem_map.1 hc'
      rw [Subtree.id_replace c hid]
      obtain ⟨m, hm, hmp⟩ := hpar c hc
      by_cases hcP : c.id ∈ P.ids
      · -- only the replaced root keeps its place among the children
        have hcc₀ : c = c₀ := by
          by_contra hne
          exact hout c hc hne c.id (Subtree.id_mem_ids c) hcP
        subst hcc₀
        have hPc : P = c := Subtree.eq_of_id_mem (Subtree.nodup_of_mem_subs hnd hsubc₀) hPc₀ hcP
        subst hPc
        obtain ⟨m', hm', hm'p⟩ := hparent m hm
        exact ⟨m', hm', hm'p.trans hmp⟩
      · rw [hagree c.id (hsub' c hc _ (Subtree.id_mem_ids c)) hcP]
        exact ⟨m, hm, hmp⟩
    · intro c' hc'
      obtain ⟨c, hc, rfl⟩ := List.mem_map.1 hc'
      by_cases hcc₀ : c = c₀
      · subst hcc₀
        exact ih c hc (Subtree.nodup_of_mem_subs hnd hsubc₀) hPc₀
          fun j hj hjP => hagree j (hsub' c hc j hj) hjP
      · have hPc : P.id ∉ c.ids := fun hj =>
          Subtree.disjoint_children hnd hc₀ hc (Ne.symm hcc₀) P.id hPid hj
        rw [Subtree.replace_of_not_mem P' hPc]
        exact (hsub c hc).congr fun j hj => hagree j (hsub' c hc j hj) (hout c hc hcc₀ j hj)

end Realizes

end TileTree

end TileSched
