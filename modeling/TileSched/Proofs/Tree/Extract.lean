import TileSched.Proofs.Tree.Walks
import TileSched.Proofs.Tree.Edits
/-! Extracting a subtree into a table of its own. The copy adds the children of a node first and
then copies each child's subtree below its fresh node, the last child first; what it leaves is
read as a subtree of the same shape and kinds (a copy) realized by the new table, every fresh
position after the ones before. -/

namespace TileSched

namespace Subtree

inductive Copy : Subtree → Subtree → Prop
  | node {i j : Nat} {k : NodeKind} {cs ds : List Subtree} (h : List.Forall₂ Copy cs ds) :
      Copy (node i k cs) (node j k ds)

theorem Copy.kind_eq {C T : Subtree} (h : C.Copy T) : T.kind = C.kind := by
  cases h
  rfl

theorem length_ids_node (i : Nat) (k : NodeKind) (cs : List Subtree) :
    (node i k cs).ids.length = (cs.map (·.ids.length)).sum + 1 := by
  rw [ids_node, List.length_cons, List.length_flatten, List.map_map]
  rfl

theorem Copy.length_ids {C T : Subtree} (h : C.Copy T) : T.ids.length = C.ids.length := by
  induction C generalizing T with
  | _ i k cs ih =>
    cases h with
    | @node _ j _ _ ds hcs =>
      -- the children's sizes agree pair by pair
      have hsizes : ds.map (·.ids.length) = cs.map (·.ids.length) := by
        rw [← List.forall₂_eq_eq_eq, List.forall₂_map_left_iff, List.forall₂_map_right_iff]
        exact (((List.forall₂_and_left _ _).2 ⟨ih, hcs⟩).imp fun _ _ h => h.1 h.2).flip
      rw [length_ids_node, length_ids_node, hsizes]

theorem Copy.leaf_ops {C T : Subtree} (h : C.Copy T) : T.leaves.map Prod.fst = C.leaves.map Prod.fst := by
  induction C generalizing T with
  | _ i k cs ih =>
    cases h with
    | @node _ j _ _ ds hcs =>
      -- the children's operations agree pair by pair
      have hops : ds.map (List.map Prod.fst ∘ leaves) = cs.map (List.map Prod.fst ∘ leaves) := by
        rw [← List.forall₂_eq_eq_eq, List.forall₂_map_left_iff, List.forall₂_map_right_iff]
        exact (((List.forall₂_and_left _ _).2 ⟨ih, hcs⟩).imp fun _ _ h => h.1 h.2).flip
      rw [leaves_node, leaves_node, List.map_append, List.map_append, List.map_flatten, List.map_flatten,
        List.map_map, List.map_map, hops]
      cases k <;> rfl

theorem Copy.key_eq {C T : Subtree} (h : C.Copy T) : T.key = C.key := by
  induction C generalizing T with
  | _ i k cs ih =>
    cases h with
    | @node _ j _ _ ds hcs =>
      -- the children's keys agree pair by pair
      have hkeys : ds.map key = cs.map key := by
        rw [← List.forall₂_eq_eq_eq, List.forall₂_map_left_iff, List.forall₂_map_right_iff]
        exact (((List.forall₂_and_left _ _).2 ⟨ih, hcs⟩).imp fun _ _ h => h.1 h.2).flip
      cases k <;> simp only [key, keyAll_eq, hkeys]

theorem Copy.forall_mem {P : Subtree → Prop} {cs ds : List Subtree} (h : List.Forall₂ Copy cs ds)
    (hP : ∀ c ∈ cs, ∀ T, c.Copy T → P T) : ∀ d ∈ ds, P d := by
  induction h with
  | nil => exact fun _ hd => nomatch hd
  | cons hcd _ ih =>
    intro d hd
    rcases List.mem_cons.1 hd with rfl | hd
    · exact hP _ List.mem_cons_self _ hcd
    · exact ih (fun c hc => hP c (List.mem_cons_of_mem _ hc)) d hd

end Subtree

namespace TileTree

variable {t : TileTree}

/-- What adding the children of a node below `dst` leaves: one fresh position per child, with its
kind and `dst` as parent, listed last among the children of `dst`; every other entry stays. -/
structure KidsAdded (out : TileTree) (dst : Nat) (cs : List Subtree) (out' : TileTree) : Prop where
  size : out'.nodes.size = out.nodes.size + cs.length
  root : out'.root = out.root
  frame : ∀ j < out.nodes.size, j ≠ dst → out'.nodes[j]? = out.nodes[j]?
  entry : out'.nodes[dst]? =
    out.nodes[dst]?.map fun n => { n with children := n.children ++ List.range' out.nodes.size cs.length }
  kids : ∀ i (hi : i < cs.length), out'.nodes[out.nodes.size + i]? =
    some { kind := cs[i].kind, parent := some dst }

/-- One step of the first pass of a copy: a fresh child of `dst` with the kind of `c`, recorded
with `c`. -/
def addKid (t : TileTree) (dst : Nat) (acc : TileTree × List (Nat × Nat)) (c : Nat) :
    Except Fault (TileTree × List (Nat × Nat)) := do
  let (o, nc) := acc.1.addChild dst (← t.kind c)
  return (o, (c, nc) :: acc.2)

theorem copyBelow_succ (t : TileTree) (f src dst : Nat) (out : TileTree) :
    t.copyBelow (f + 1) src dst out = (do
      let cs ← t.children src
      let (out, pairs) ← cs.foldlM (addKid t dst) (out, [])
      pairs.foldlM (fun o (c, nc) => t.copyBelow f c nc o) out) := rfl

theorem foldlM_addKids (dst : Nat) :
    ∀ (cs : List Subtree), (∀ c ∈ cs, t.kind c.id = .ok c.kind) →
    ∀ (out : TileTree) (ps : List (Nat × Nat)), dst < out.nodes.size →
    ∃ out', (cs.map Subtree.id).foldlM (addKid t dst) (out, ps) =
      .ok (out', ((cs.map Subtree.id).zip (List.range' out.nodes.size cs.length)).reverse ++ ps) ∧
      KidsAdded out dst cs out'
  | [], _, out, ps, _ => ⟨out, rfl, by simp, rfl, fun _ _ _ => rfl, by simp, fun _ hi => nomatch hi⟩
  | c :: cs, hk, out, ps, hdst => by
    obtain ⟨out', hfold, hadd⟩ := foldlM_addKids dst cs (fun c hc => hk c (List.mem_cons_of_mem _ hc))
      (out.addChild dst c.kind).1 ((c.id, out.nodes.size) :: ps) (by rw [size_addChild]; omega)
    refine ⟨out', ?_, ?_⟩
    · rw [List.map_cons, List.foldlM_cons, addKid, hk c List.mem_cons_self]
      simp only [bind, Except.bind, pure, Except.pure, addChild_snd]
      rw [hfold, size_addChild]
      simp [List.range'_succ]
    · have hsize := size_addChild out dst c.kind
      have hnew := out.getElem?_addChild_new c.kind hdst
      refine ⟨by rw [hadd.size, hsize, List.length_cons]; omega, hadd.root, fun j hj hjd => ?_, ?_, ?_⟩
      · rw [hadd.frame j (by omega) hjd]
        exact out.getElem?_addChild_of_ne _ hjd (Nat.ne_of_lt hj)
      · rw [hadd.entry, hsize, out.getElem?_addChild_parent _ hdst, Option.map_map, List.length_cons,
          List.range'_succ]
        simp [Function.comp_def]
      · intro i hi
        cases i with
        | zero =>
          rw [Nat.add_zero, hadd.frame _ (by omega) (Nat.ne_of_gt hdst), hnew]
          rfl
        | succ i =>
          have := hadd.kids i (by simpa using hi)
          rw [hsize, Nat.add_right_comm] at this
          rw [← Nat.add_assoc, this]
          rfl

/-- What copying the subtree `C` below the node `dst` of `out` leaves: the copy's fresh positions
follow the table, the entry of `dst` keeps its parent, every other entry stays, and the table
realizes a copy of `C` rooted at `dst`. -/
structure Copied (C : Subtree) (out : TileTree) (dst : Nat) (out' : TileTree) : Prop where
  size : out'.nodes.size + 1 = out.nodes.size + C.ids.length
  root : out'.root = out.root
  frame : ∀ j < out.nodes.size, j ≠ dst → out'.nodes[j]? = out.nodes[j]?
  parent : ∀ m, out.nodes[dst]? = some m → ∃ m', out'.nodes[dst]? = some m' ∧ m'.parent = m.parent
  copy : ∃ T, T.id = dst ∧ C.Copy T ∧ out'.Realizes T ∧ (∀ j ∈ T.ids, j = dst ∨ out.nodes.size ≤ j) ∧
    T.ids.Nodup

theorem Copied.le_size {C : Subtree} {out out' : TileTree} {dst : Nat} (h : Copied C out dst out') :
    out.nodes.size ≤ out'.nodes.size := by
  have := List.length_pos_of_mem (Subtree.id_mem_ids C)
  have := h.size
  omega

structure CopiedAll (cs : List Subtree) (out : TileTree) (s : Nat) (out' : TileTree) (Ts : List Subtree) :
    Prop where
  size : out'.nodes.size + cs.length = out.nodes.size + (cs.map (·.ids.length)).sum
  le_size : out.nodes.size ≤ out'.nodes.size
  root : out'.root = out.root
  frame : ∀ j < out.nodes.size, (j < s ∨ s + cs.length ≤ j) → out'.nodes[j]? = out.nodes[j]?
  parent : ∀ i < cs.length, ∀ m, out.nodes[s + i]? = some m →
    ∃ m', out'.nodes[s + i]? = some m' ∧ m'.parent = m.parent
  copies : List.Forall₂ Subtree.Copy cs Ts
  ids : Ts.map Subtree.id = List.range' s cs.length
  realizes : ∀ T ∈ Ts, out'.Realizes T
  fresh : ∀ T ∈ Ts, ∀ j ∈ T.ids, j = T.id ∨ out.nodes.size ≤ j
  nodup : (Ts.map Subtree.ids).flatten.Nodup

theorem foldrM_copy {g : Nat × Nat → TileTree → Except Fault TileTree} :
    ∀ (cs : List Subtree), (∀ c ∈ cs, ∀ dst out m, out.nodes[dst]? = some m → m.kind = c.kind →
      m.children = [] → ∃ out', g (c.id, dst) out = .ok out' ∧ Copied c out dst out') →
    ∀ s out, s + cs.length ≤ out.nodes.size →
    (∀ i (hi : i < cs.length), ∃ m, out.nodes[s + i]? = some m ∧ m.kind = cs[i].kind ∧ m.children = []) →
    ∃ out' Ts, ((cs.map Subtree.id).zip (List.range' s cs.length)).foldrM g out = .ok out' ∧
      CopiedAll cs out s out' Ts
  | [], _, s, out, _, _ => ⟨out, [], rfl,
      ⟨rfl, Nat.le_refl _, rfl, fun _ _ _ => rfl, fun _ hi => (nomatch hi), .nil, rfl, fun _ h => (nomatch h),
        fun _ h => (nomatch h), List.nodup_nil⟩⟩
  | c :: cs, hg, s, out, hs, hpre => by
    -- the later children are copied first, then `c` at `s`
    obtain ⟨out₂, Ts, hfold, hall⟩ := foldrM_copy cs (fun c hc => hg c (List.mem_cons_of_mem _ hc))
      (s + 1) out (by simp at hs; omega) fun i hi => by
        obtain ⟨m, hm, hmk, hmc⟩ := hpre (i + 1) (by simpa using hi)
        exact ⟨m, by rwa [Nat.add_right_comm, Nat.add_assoc], hmk, hmc⟩
    obtain ⟨m, hm, hmk, hmc⟩ := hpre 0 (by simp)
    rw [Nat.add_zero] at hm
    have hs₂ : out₂.nodes[s]? = some m := by
      rw [hall.frame s (by simp at hs; omega) (Or.inl (by omega)), hm]
    obtain ⟨out₃, hstep, hc⟩ := hg c List.mem_cons_self s out₂ m hs₂ hmk hmc
    obtain ⟨T, hTid, hTc, hTr, hTf, hTnd⟩ := hc.copy
    have hlen : s + cs.length < out.nodes.size := by simp at hs; omega
    refine ⟨out₃, T :: Ts, ?_, ?_⟩
    · rw [List.map_cons, List.length_cons, List.range'_succ, List.zip_cons_cons, List.foldrM_cons, hfold]
      exact hstep
    · have hgrow := hc.le_size
      refine ⟨?_, Nat.le_trans hall.le_size hgrow, hc.root.trans hall.root, fun j hj hjs => ?_, ?_, .cons hTc hall.copies,
        by rw [List.map_cons, hTid, hall.ids, List.length_cons, List.range'_succ], ?_, ?_, ?_⟩
      · have := hc.size
        have := hall.size
        simp only [List.length_cons, List.map_cons, List.sum_cons]
        omega
      · rw [List.length_cons] at hjs
        have := hall.le_size
        rw [hc.frame j (by omega) (by omega), hall.frame j hj (by omega)]
      · intro i hi m' hm'
        cases i with
        | zero =>
          rw [Nat.add_zero] at hm' ⊢
          rw [hm] at hm'
          obtain ⟨m'', h'', hpar⟩ := hc.parent m hs₂
          exact ⟨m'', h'', hpar.trans (by rw [Option.some.inj hm'])⟩
        | succ i =>
          rw [← Nat.add_assoc, Nat.add_right_comm] at hm' ⊢
          rw [hc.frame _ (by have := hall.le_size; simp at hi; omega) (by omega)]
          exact hall.parent i (by simpa using hi) m' hm'
      · intro T' hT'
        rcases List.mem_cons.1 hT' with rfl | hT'
        · exact hTr
        · -- the copy of `c` keeps every position of the copies made before
          refine (hall.realizes T' hT').congr fun j hj => hc.frame j ((hall.realizes T' hT').lt_size j hj) ?_
          rcases hall.fresh T' hT' j hj with rfl | hj'
          · have : T'.id ∈ List.range' (s + 1) cs.length := hall.ids ▸ List.mem_map_of_mem hT'
            rw [List.mem_range'_1] at this
            omega
          · omega
      · intro T' hT' j hj
        rcases List.mem_cons.1 hT' with rfl | hT'
        · rcases hTf j hj with h | h
          · exact Or.inl (h.trans hTid.symm)
          · exact Or.inr (Nat.le_trans hall.le_size h)
        · exact hall.fresh T' hT' j hj
      · -- the copy of `c` holds `s` and positions past the earlier copies, which hold theirs below
        rw [List.map_cons, List.flatten_cons, List.nodup_append]
        refine ⟨hTnd, hall.nodup, fun a ha b hb => ?_⟩
        obtain ⟨_, hl, hb⟩ := List.mem_flatten.1 hb
        obtain ⟨T', hT', rfl⟩ := List.mem_map.1 hl
        have hlt := (hall.realizes T' hT').lt_size b hb
        have hT'id : T'.id ∈ List.range' (s + 1) cs.length := hall.ids ▸ List.mem_map_of_mem hT'
        rw [List.mem_range'_1] at hT'id
        rcases hTf a ha with rfl | ha'
        · rcases hall.fresh T' hT' b hb with rfl | hb'
          · omega
          · omega
        · omega

theorem copyBelow_copied {C : Subtree} (h : t.Unfolds C) :
    ∀ f, C.ids.toFinset.card ≤ f → ∀ dst out m, out.nodes[dst]? = some m → m.kind = C.kind → m.children = [] →
      ∃ out', t.copyBelow f C.id dst out = .ok out' ∧ Copied C out dst out' := by
  induction h with
  | @node i k cs n hn hkind hchildren hsub ih =>
    intro f hf dst out m hm hmk hmc
    have hC : t.Unfolds (.node i k cs) := .node hn hkind hchildren hsub
    have hch : t.children i = .ok (cs.map Subtree.id) := by
      simpa using hC.children_eq
    have hdst : dst < out.nodes.size := (Array.getElem?_eq_some_iff.1 hm).1
    have hlen := Subtree.length_ids_node i k cs
    obtain ⟨f, rfl⟩ : ∃ f', f = f' + 1 := ⟨f - 1, by have := Subtree.card_ids_pos (.node i k cs); omega⟩
    -- the first pass gives every child a fresh node, the second copies below each of them
    obtain ⟨out₁, hfold₁, hkids⟩ := foldlM_addKids (t := t) dst cs (fun c hc => (hsub c hc).kind_eq) out [] hdst
    obtain ⟨out₂, Ts, hfold₂, hall⟩ := foldrM_copy (g := fun x o => match x with | (c, nc) => t.copyBelow f c nc o) cs
      (fun c hc => ih c hc f (by have := hC.card_child_lt (c := c) hc; omega))
      out.nodes.size out₁ (Nat.le_of_eq hkids.size.symm) (fun j hj => ⟨_, hkids.kids j hj, rfl, rfl⟩)
    have hentry : out₂.nodes[dst]? = some { m with children := List.range' out.nodes.size cs.length } := by
      rw [hall.frame dst (by rw [hkids.size]; omega) (Or.inl hdst), hkids.entry, hm, Option.map_some, hmc,
        List.nil_append]
    refine ⟨out₂, ?_, ?_⟩
    · rw [copyBelow_succ, Subtree.id_node]
      simp only [hch, bind, Except.bind, hfold₁, List.append_nil, List.foldlM_reverse]
      exact hfold₂
    · refine ⟨by have := hall.size; have := hkids.size; omega, hall.root.trans hkids.root,
        fun j hj hjd => ?_, fun m' hm' => ?_, ⟨.node dst k Ts, rfl, .node hall.copies, ?_, ?_, ?_⟩⟩
      · rw [hall.frame j (by rw [hkids.size]; omega) (Or.inl hj)]
        exact hkids.frame j hj hjd
      · rw [hm] at hm'
        exact ⟨_, hentry, by rw [Option.some.inj hm']⟩
      · refine .node hentry (by simpa using hmk) hall.ids.symm (fun T hT => ?_) hall.realizes
        -- each copied child sits at a fresh position below `dst`
        have hTid : T.id ∈ List.range' out.nodes.size cs.length := hall.ids ▸ List.mem_map_of_mem hT
        have hr := List.mem_range'_1.1 hTid
        have hj : T.id - out.nodes.size < cs.length := by omega
        obtain ⟨m', hm', hpar⟩ := hall.parent _ hj _ (hkids.kids _ hj)
        rw [Nat.add_sub_cancel' hr.1] at hm'
        exact ⟨m', hm', hpar⟩
      · intro j hj
        rw [Subtree.ids_node, List.mem_cons, List.mem_flatten] at hj
        rcases hj with rfl | ⟨_, hl, hj⟩
        · exact Or.inl rfl
        obtain ⟨T, hT, rfl⟩ := List.mem_map.1 hl
        have hTid : T.id ∈ List.range' out.nodes.size cs.length := hall.ids ▸ List.mem_map_of_mem hT
        rcases hall.fresh T hT j hj with rfl | hj'
        · exact Or.inr (List.mem_range'_1.1 hTid).1
        · rw [hkids.size] at hj'
          exact Or.inr (by omega)
      · -- `dst` is older than every copied position
        rw [Subtree.ids_node, List.nodup_cons]
        refine ⟨fun hd => ?_, hall.nodup⟩
        obtain ⟨_, hl, hj⟩ := List.mem_flatten.1 hd
        obtain ⟨T, hT, rfl⟩ := List.mem_map.1 hl
        have hTid : T.id ∈ List.range' out.nodes.size cs.length := hall.ids ▸ List.mem_map_of_mem hT
        rw [List.mem_range'_1] at hTid
        rcases hall.fresh T hT dst hj with h | h
        · omega
        · rw [hkids.size] at h
          omega

theorem Unfolds.extract_copy {C : Subtree} (h : t.Unfolds C) :
    ∃ e T, t.extract C.id = .ok e ∧ C.Copy T ∧ e.Realizes T ∧ T.id = e.root ∧ e.nodes.size = C.ids.length ∧
      T.ids.Nodup ∧ ∃ m, e.nodes[e.root]? = some m ∧ m.parent = none := by
  obtain ⟨e, hcopy, hc⟩ := copyBelow_copied h t.fuel (by have := h.card_le_size; rw [fuel]; omega) 0
    (new C.kind) { kind := C.kind } rfl rfl rfl
  obtain ⟨T, hTid, hTc, hTr, -, hTnd⟩ := hc.copy
  obtain ⟨m, hm, hpar⟩ := hc.parent { kind := C.kind } rfl
  refine ⟨e, T, ?_, hTc, hTr, hTid.trans hc.root.symm, ?_, hTnd, m, by rwa [hc.root], hpar⟩
  · rw [extract, h.kind_eq]
    exact hcopy
  · have := hc.size
    simp only [new, List.size_toArray, List.length_cons, List.length_nil] at this
    omega

theorem extract_copy {C : Subtree} (h : t.Realizes C) (_hnd : C.ids.Nodup) :
    ∃ e T, t.extract C.id = .ok e ∧ C.Copy T ∧ e.Realizes T ∧ T.id = e.root ∧ e.nodes.size = C.ids.length ∧
      T.ids.Nodup := by
  obtain ⟨e, T, hext, hcopy, hT, hroot, hsize, hnd, -⟩ := h.unfolds.extract_copy
  exact ⟨e, T, hext, hcopy, hT, hroot, hsize, hnd⟩

/-! A copy reads only the kinds and child lists of what it copies, so subtrees that copy each other
are extracted to one table. -/

theorem foldlM_addKid_eq (dst : Nat) :
    ∀ (cs : List Subtree), (∀ c ∈ cs, t.kind c.id = .ok c.kind) → ∀ (out : TileTree) (ps : List (Nat × Nat)),
    (cs.map Subtree.id).foldlM (addKid t dst) (out, ps) =
      .ok ((cs.map Subtree.kind).foldl (fun o k => (o.addChild dst k).1) out,
        ((cs.map Subtree.id).zip (List.range' out.nodes.size cs.length)).reverse ++ ps)
  | [], _, out, ps => rfl
  | c :: cs, hk, out, ps => by
    rw [List.map_cons, List.foldlM_cons, addKid, hk c List.mem_cons_self]
    simp only [bind, Except.bind, pure, Except.pure, addChild_snd]
    rw [foldlM_addKid_eq dst cs (fun c hc => hk c (List.mem_cons_of_mem _ hc)), size_addChild]
    simp [List.range'_succ]

theorem Subtree.Copy.map_kind {cs ds : List Subtree} (h : List.Forall₂ Subtree.Copy cs ds) :
    ds.map Subtree.kind = cs.map Subtree.kind := by
  induction h with
  | nil => rfl
  | cons hc _ ih => rw [List.map_cons, List.map_cons, hc.kind_eq, ih]

theorem foldrM_copies_eq {g q : Nat × Nat → TileTree → Except Fault TileTree} {cs ds : List Subtree}
    (hcd : List.Forall₂ Subtree.Copy cs ds)
    (hg : ∀ c ∈ cs, ∀ d ∈ ds, c.Copy d → ∀ n o, g (c.id, n) o = q (d.id, n) o) :
    ∀ s out, ((cs.map Subtree.id).zip (List.range' s cs.length)).foldrM g out =
      ((ds.map Subtree.id).zip (List.range' s ds.length)).foldrM q out := by
  induction hcd with
  | nil => exact fun _ _ => rfl
  | @cons c d cs ds hc _ ih =>
    intro s out
    have hstep : g (c.id, s) = q (d.id, s) := funext (hg c List.mem_cons_self d List.mem_cons_self hc s)
    rw [List.map_cons, List.map_cons, List.length_cons, List.length_cons, List.range'_succ, List.range'_succ,
      List.zip_cons_cons, List.zip_cons_cons, List.foldrM_cons, List.foldrM_cons, hstep,
      ih (fun c' hc' d' hd' => hg c' (List.mem_cons_of_mem _ hc') d' (List.mem_cons_of_mem _ hd')) (s + 1) out]

theorem Unfolds.copyBelow_eq {t' : TileTree} {C : Subtree} (h : t.Unfolds C) :
    ∀ {C' : Subtree}, t'.Unfolds C' → C.Copy C' → ∀ f f', C.ids.toFinset.card ≤ f → C'.ids.toFinset.card ≤ f' →
      ∀ dst out, t.copyBelow f C.id dst out = t'.copyBelow f' C'.id dst out := by
  induction h with
  | @node i k cs n hn hkind hchildren hsub ih =>
    intro C' h' hc f f' hf hf' dst out
    have hC : t.Unfolds (.node i k cs) := .node hn hkind hchildren hsub
    cases hc with
    | @node _ j _ _ ds hcd =>
      obtain ⟨f, rfl⟩ : ∃ g, f = g + 1 := ⟨f - 1, by have := Subtree.card_ids_pos (.node i k cs); omega⟩
      obtain ⟨f', rfl⟩ : ∃ g, f' = g + 1 := ⟨f' - 1, by have := Subtree.card_ids_pos (.node j k ds); omega⟩
      -- both first passes add children of the same kinds; the second passes copy pair by pair
      have hfirst := foldlM_addKid_eq (t := t) dst cs (fun c hc => (hsub c hc).kind_eq) out []
      have hfirst' := foldlM_addKid_eq (t := t') dst ds (fun d hd => (h'.child hd).kind_eq) out []
      rw [Subtree.Copy.map_kind hcd] at hfirst'
      have hch : t.children i = .ok (cs.map Subtree.id) := by simpa using hC.children_eq
      have hch' : t'.children j = .ok (ds.map Subtree.id) := by simpa using h'.children_eq
      rw [copyBelow_succ, copyBelow_succ, Subtree.id_node, Subtree.id_node]
      simp only [hch, hch', bind, Except.bind, hfirst, hfirst', List.append_nil, List.foldlM_reverse]
      exact foldrM_copies_eq (g := fun x o => t.copyBelow f x.1 x.2 o) (q := fun x o => t'.copyBelow f' x.1 x.2 o) hcd
        (fun c hc d hd hcopy n o => ih c hc (h'.child hd) hcopy f f' (by have := hC.card_child_lt (c := c) hc; omega)
          (by have := h'.card_child_lt (c := d) hd; omega) n o) _ _

theorem Unfolds.extract_eq {t' : TileTree} {C C' : Subtree} (h : t.Unfolds C) (h' : t'.Unfolds C')
    (hc : C.Copy C') : t.extract C.id = t'.extract C'.id := by
  rw [extract, extract, h.kind_eq, h'.kind_eq, hc.kind_eq]
  exact h.copyBelow_eq h' hc _ _ (by have := h.card_le_size; rw [fuel]; omega)
    (by have := h'.card_le_size; rw [fuel]; omega) 0 _

theorem Realizes.mem_ids {e : TileTree} {T : Subtree} (h : e.Realizes T) (hnd : T.ids.Nodup)
    (hsize : e.nodes.size = T.ids.length) {j : Nat} (hj : j < e.nodes.size) : j ∈ T.ids := by
  have hsub : T.ids.Subperm (List.range e.nodes.size) :=
    List.subperm_of_subset hnd fun j hj => List.mem_range.2 (h.lt_size j hj)
  exact (hsub.perm_of_length_le (by simp [hsize])).mem_iff.2 (List.mem_range.2 hj)

/-- The parent and child links of a table agree: a node lists `j` among its children exactly when
`j` is an entry whose parent is that node. -/
def LinksAgree (t : TileTree) : Prop :=
  ∀ i j, (∃ n : TreeNode, t.nodes[i]? = some n ∧ j ∈ n.children) ↔
    ∃ m : TreeNode, t.nodes[j]? = some m ∧ m.parent = some i

theorem Realizes.linksAgree {e : TileTree} {T : Subtree} (h : e.Realizes T) (hnd : T.ids.Nodup)
    (hsize : e.nodes.size = T.ids.length) (hroot : ∀ m, e.nodes[T.id]? = some m → m.parent = none) :
    e.LinksAgree := by
  unfold LinksAgree
  intro i j
  constructor
  · rintro ⟨n, hn, hj⟩
    -- the node at `i` is one of the subtree, and it lists the roots of its children
    obtain ⟨P, hP, rfl⟩ := List.mem_map.1 (h.mem_ids hnd hsize (Array.getElem?_eq_some_iff.1 hn).1)
    obtain ⟨n', hn', -, hch⟩ := (h.sub hP).entry
    rw [hn, Option.some.injEq] at hn'
    rw [hn', hch] at hj
    obtain ⟨c, hc, rfl⟩ := List.mem_map.1 hj
    exact ((h.sub hP).child hc).2
  · rintro ⟨m, hm, hpar⟩
    obtain ⟨Q, hQ, rfl⟩ := List.mem_map.1 (h.mem_ids hnd hsize (Array.getElem?_eq_some_iff.1 hm).1)
    by_cases hQT : Q = T
    · subst hQT
      rw [hroot m hm] at hpar
      cases hpar
    · -- below the root, the parent link names the parent in the subtree
      obtain ⟨P, hP, hQP, hparP⟩ := h.parent_of_mem hQ hQT
      rw [parent_of_getElem? hm, hpar, Except.ok.injEq, Option.some.injEq] at hparP
      subst hparP
      obtain ⟨n, hn, -, hch⟩ := (h.sub hP).entry
      exact ⟨n, hn, hch ▸ List.mem_map_of_mem hQP⟩

/-- Extraction copies a subtree faithfully and compactly. For a subtree held at a node through the
child links of a table, where a position may stand at several places, extracting it succeeds and
gives a table with one entry per node of the subtree's preorder, each reached once from the root;
its parent and child links agree and its root has no parent; it realizes a copy of the subtree,
with the same kinds and the children in the same order; and it has the subtree's structural key
and operation leaves of the same operations in the same order. -/
theorem extract_faithful {t : TileTree} {S : Subtree} (h : t.Unfolds S) :
    ∃ e, t.extract S.id = .ok e ∧
      (∃ ps, t.preorder S.id = .ok ps ∧ e.len = ps.length) ∧
      (∃ qs, e.preorder e.root = .ok qs ∧ qs.Perm (List.range e.len)) ∧
      e.LinksAgree ∧ (∃ m, e.nodes[e.root]? = some m ∧ m.parent = none) ∧
      (∃ T, S.Copy T ∧ e.Realizes T ∧ T.id = e.root) ∧
      (∃ key, t.structuralKey S.id = .ok key ∧ e.structuralKey e.root = .ok key) ∧
      ∃ ls ls', t.opLeaves S.id = .ok ls ∧ e.opLeaves e.root = .ok ls' ∧
        ls'.map Prod.fst = ls.map Prod.fst := by
  obtain ⟨e, T, hext, hcopy, hT, hroot, hsize, hnd, m, hm, hmpar⟩ := h.extract_copy
  have hsize' : e.nodes.size = T.ids.length := hsize.trans hcopy.length_ids.symm
  -- the copy's distinct positions are all the entries of the table
  have hperm : T.ids.Perm (List.range e.nodes.size) :=
    (List.subperm_of_subset hnd fun j hj => List.mem_range.2 (hT.lt_size j hj)).perm_of_length_le
      (by simp [hsize'])
  have hrootpar : ∀ m', e.nodes[T.id]? = some m' → m'.parent = none := fun m' hm' => by
    rw [hroot, hm, Option.some.injEq] at hm'
    exact hm' ▸ hmpar
  refine ⟨e, hext, ⟨S.ids, h.preorder_eq, hsize⟩, ⟨T.ids, hroot ▸ hT.unfolds.preorder_eq, hperm⟩,
    hT.linksAgree hnd hsize' hrootpar, ⟨m, hm, hmpar⟩, ⟨T, hcopy, hT, hroot⟩,
    ⟨S.key, h.structuralKey_eq, ?_⟩, S.leaves, T.leaves, h.opLeaves_eq, hroot ▸ hT.unfolds.opLeaves_eq,
    hcopy.leaf_ops⟩
  rw [← hroot, hT.unfolds.structuralKey_eq, hcopy.key_eq]

def sharedLeaf : TileTree :=
  ⟨#[{ kind := .scope, children := [1, 1] }, { kind := .leaf ⟨5, .identity 1, [4]⟩, parent := some 0 }], 0⟩

def sharedLeafSubtree : Subtree :=
  .node 0 .scope [.node 1 (.leaf ⟨5, .identity 1, [4]⟩) [], .node 1 (.leaf ⟨5, .identity 1, [4]⟩) []]

/-- Extracting the scope copies the shared leaf twice, into a table of three entries whose links
agree. -/
theorem sharedLeaf_extract_faithful :
    sharedLeaf.Unfolds sharedLeafSubtree ∧
      ∃ e, sharedLeaf.extract 0 = .ok e ∧ e.len = 3 ∧ e.LinksAgree := by
  have hleaf : sharedLeaf.Unfolds (.node 1 (.leaf ⟨5, .identity 1, [4]⟩) []) :=
    .node rfl rfl rfl fun _ h => nomatch h
  have hu : sharedLeaf.Unfolds sharedLeafSubtree :=
    .node rfl rfl rfl (List.forall_mem_cons.2 ⟨hleaf, List.forall_mem_cons.2 ⟨hleaf, fun _ h => nomatch h⟩⟩)
  obtain ⟨e, hext, ⟨ps, hps, hlen⟩, -, hlinks, -⟩ := extract_faithful hu
  rw [hu.preorder_eq, Except.ok.injEq] at hps
  exact ⟨hu, e, hext, by rw [hlen, ← hps]; rfl, hlinks⟩

end TileTree

end TileSched
