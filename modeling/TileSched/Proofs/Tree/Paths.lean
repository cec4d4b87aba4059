import Mathlib
import TileSched.Proofs.Tree.Walks
/-! Paths down a subtree, and the walk that climbs them. `Descends A Q ps` lists the subtrees from a
child of `A` down to `Q`, each a child of the one before: every subtree of `A` has such a path,
shorter than `A` has nodes. In a table realizing a subtree with distinct positions, the walk up the
parent links from `Q` to `A` returns the path's positions from `Q` up, whenever its fuel exceeds
the path's length, as the fuel of the table's walks does. -/

namespace TileSched

namespace Subtree

/-- `Q` lies below `A` along `ps`: the subtrees from a child of `A` down to `Q`, each a child of the
one before; `Q` is `A` when `ps` is empty. -/
inductive Descends (A : Subtree) : Subtree → List Subtree → Prop
  | refl : Descends A A []
  | step {P Q : Subtree} {ps : List Subtree} (h : Descends A P ps) (hQ : Q ∈ P.children) :
      Descends A Q (ps ++ [Q])

namespace Descends

variable {A Q : Subtree} {ps : List Subtree}

theorem mem_subs (h : Descends A Q ps) : Q ∈ A.subs := by
  induction h with
  | refl => exact self_mem_subs A
  | step _ hQ ih => exact subs_trans ih (mem_subs_of_mem_children hQ)

theorem cons {c : Subtree} (h : Descends c Q ps) (hc : c ∈ A.children) : Descends A Q (c :: ps) := by
  induction h with
  | refl => exact .step .refl hc
  | step _ hQ ih => exact .step ih hQ

theorem exists_of_mem_subs (hQ : Q ∈ A.subs) : ∃ ps, Descends A Q ps := by
  induction A with
  | _ i k cs ih =>
    rcases List.mem_cons.1 (subs_node i k cs ▸ hQ) with rfl | hQ
    · exact ⟨[], .refl⟩
    · obtain ⟨c, hc, hQc⟩ := List.mem_flatMap.1 hQ
      obtain ⟨ps, hps⟩ := ih c hc hQc
      exact ⟨c :: ps, hps.cons hc⟩

theorem length_add_le (h : Descends A Q ps) : ps.length + Q.ids.length ≤ A.ids.length := by
  induction h with
  | refl => simp
  | step _ hQ ih =>
    have := length_ids_child hQ
    simp only [List.length_append, List.length_singleton]
    omega

end Descends

end Subtree

namespace TileTree.Realizes

variable {t : TileTree} {S A Q : Subtree} {ps : List Subtree}

theorem length_lt_fuel (hr : t.Realizes S) (hnd : S.ids.Nodup) (hA : A ∈ S.subs)
    (h : Subtree.Descends A Q ps) : ps.length < t.fuel := by
  have h₁ := h.length_add_le
  have h₂ := (Subtree.sublist_ids hA).length_le
  have h₃ := hr.length_ids_le hnd
  have h₄ : 0 < Q.ids.length := List.length_pos_of_mem (Subtree.id_mem_ids Q)
  rw [TileTree.fuel]
  omega

theorem pathUp_eq (hr : t.Realizes S) (hnd : S.ids.Nodup) (hA : A ∈ S.subs) (h : Subtree.Descends A Q ps)
    (n : Nat) : ∀ f, ps.length < f → t.pathUp A.id n f Q.id = .ok (ps.map Subtree.id).reverse := by
  induction h with
  | refl =>
    intro f hf
    obtain ⟨f, rfl⟩ : ∃ f', f = f' + 1 := ⟨f - 1, by omega⟩
    simp [TileTree.pathUp]
  | @step P Q ps hP hQ ih =>
    intro f hf
    obtain ⟨f, rfl⟩ : ∃ f', f = f' + 1 := ⟨f - 1, by simp at hf; omega⟩
    have hPA := hP.mem_subs
    have hPS := Subtree.subs_trans hA hPA
    -- `Q` lies strictly below `A`, so it sits at another position
    have hne : Q.id ≠ A.id := fun heq => by
      have hQA : Q = A :=
        Subtree.eq_of_id_eq hnd (Subtree.subs_trans hPS (Subtree.mem_subs_of_mem_children hQ)) hA heq
      have h₁ := Subtree.length_ids_child hQ
      have h₂ := (Subtree.sublist_ids hPA).length_le
      rw [hQA] at h₁
      omega
    have hup := ih f (by simp at hf; omega)
    rw [TileTree.pathUp, if_neg hne, (hr.sub hPS).parent_eq hQ]
    simp [hup, liftFault, Except.mapError, bind, Except.bind, pure, Except.pure]

end TileTree.Realizes

end TileSched
