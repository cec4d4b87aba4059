import Mathlib
import TileSched.Proofs.Schedule.Placement
/-! What a capacity constraint adds up. Its terms are, for every buffer held, the placement
boolean of each create position at the level times that position's size. Under a solution that
sets one boolean of each placed buffer, a buffer's terms add up to the size of the position chosen
when the choice falls on the level, and to nothing otherwise: the bytes its placement reports.
The enclosing tiles a capacity constraint looks at are the chain of parents of the tile. -/

namespace TileSched

open Solving

namespace TileTree

inductive UpChain (t : TileTree) : Option Nat → List Nat → Prop
  | top : UpChain t none []
  | up {p : Nat} {q : Option Nat} {l : List Nat} : t.parent p = .ok q → UpChain t q l →
      UpChain t (some p) (p :: l)

namespace UpChain

variable {t : TileTree}

theorem unique {q : Option Nat} {l₁ l₂ : List Nat} (h₁ : UpChain t q l₁) (h₂ : UpChain t q l₂) :
    l₁ = l₂ := by
  induction h₁ generalizing l₂ with
  | top => cases h₂; rfl
  | up hp _ ih =>
    cases h₂ with
    | up hp' h₂ =>
      rw [hp] at hp'
      cases hp'
      rw [ih h₂]

theorem of_mem {q : Option Nat} {l : List Nat} (h : UpChain t q l) {p : Nat} (hp : p ∈ l) :
    ∃ l', UpChain t (some p) l' ∧ l'.length ≤ l.length := by
  induction h with
  | top => cases hp
  | @up p' q' l' hpar h ih =>
    rcases List.mem_cons.1 hp with rfl | hp
    · exact ⟨_, .up hpar h, le_refl _⟩
    · obtain ⟨l'', h'', hlen⟩ := ih hp
      exact ⟨l'', h'', by simp only [List.length_cons]; omega⟩

theorem not_mem {p : Nat} {q : Option Nat} {l : List Nat} (hp : t.parent p = .ok q)
    (h : UpChain t q l) : p ∉ l := by
  intro hmem
  obtain ⟨l', h', hlen⟩ := h.of_mem hmem
  have := (UpChain.up hp h).unique h'
  rw [← this, List.length_cons] at hlen
  omega

theorem nodup {q : Option Nat} {l : List Nat} (h : UpChain t q l) : l.Nodup := by
  induction h with
  | top => exact List.nodup_nil
  | up hp h ih => exact List.nodup_cons.2 ⟨not_mem hp h, ih⟩

theorem length_le {q : Option Nat} {l : List Nat} (h : UpChain t q l) : l.length ≤ t.len := by
  have hlt : ∀ p ∈ l, p < t.len := by
    induction h with
    | top => intro p hp; cases hp
    | up hp _ ih =>
      intro p' hp'
      rcases List.mem_cons.1 hp' with rfl | hp'
      · obtain ⟨n, hn, -⟩ := bind_eq_ok.1 hp
        exact (Array.getElem?_eq_some_iff.1 (entryAt_eq_ok.1 hn)).1
      · exact ih p' hp'
  rw [← List.toFinset_card_of_nodup h.nodup, ← Finset.card_range t.len]
  exact Finset.card_le_card fun p hp => Finset.mem_range.2 (hlt p (List.mem_toFinset.1 hp))

end UpChain

end TileTree

theorem runs_ancestors (t : TileTree) :
    ∀ (f : Nat) {q : Option Nat} {s s' : SolveState} {al : List Nat},
      Runs (Tiler.ancestors t f q) s al s' → s' = s ∧ ∀ l, t.UpChain q l → l.length ≤ f → al = l
  | 0, _, _, _, _, h => by
    obtain ⟨rfl, rfl⟩ := runs_pure.1 h
    refine ⟨rfl, fun l _ hl => ?_⟩
    rw [List.length_eq_zero_iff.1 (Nat.le_zero.1 hl)]
  | f + 1, none, _, _, _, h => by
    obtain ⟨rfl, rfl⟩ := runs_pure.1 h
    exact ⟨rfl, fun l hl _ => by cases hl; rfl⟩
  | f + 1, some p, s, s', al, h => by
    simp only [Tiler.ancestors, runs_bind, runs_pure] at h
    obtain ⟨q, t₁, hq, rest, t₂, hrest, rfl, rfl⟩ := h
    obtain ⟨hpar, rfl⟩ := runs_tree.1 hq
    obtain ⟨rfl, hchain⟩ := runs_ancestors t f hrest
    refine ⟨rfl, fun l hl hlen => ?_⟩
    cases hl with
    | up hp hl =>
      rw [hpar] at hp
      cases hp
      rw [hchain _ hl (by simp only [List.length_cons] at hlen; omega)]

theorem inj_of_nodup_map {α β : Type} {f : α → β} :
    ∀ {l : List α}, (l.map f).Nodup → ∀ x ∈ l, ∀ y ∈ l, f x = f y → x = y
  | [], _, x, hx, _, _, _ => absurd hx List.not_mem_nil
  | a :: l, h, x, hx, y, hy, hxy => by
    rw [List.map_cons, List.nodup_cons] at h
    rcases List.mem_cons.1 hx with rfl | hx' <;> rcases List.mem_cons.1 hy with rfl | hy'
    · rfl
    · exact absurd (hxy ▸ List.mem_map_of_mem hy') h.1
    · exact absurd (hxy.symm ▸ List.mem_map_of_mem hx') h.1
    · exact inj_of_nodup_map h.2 x hx' y hy' hxy

namespace TileBuffer

variable {b : TileBuffer}

theorem mem_allPlaces {pos sl e : Nat} :
    (pos, sl, e) ∈ b.allPlaces ↔ ∃ slot, pos = slot + b.firstPos ∧ (b.places.getD slot [])[sl]? = some e := by
  simp only [allPlaces, List.mem_flatMap, List.mem_map, Prod.mk.injEq, List.mem_zipIdx_iff_getElem?]
  constructor
  · rintro ⟨⟨row, slot⟩, hrow, ⟨e', sl'⟩, he, rfl, rfl, rfl⟩
    refine ⟨slot, rfl, ?_⟩
    simp only at hrow he
    rw [List.getD_eq_getElem?_getD, hrow]
    exact he
  · rintro ⟨slot, rfl, he⟩
    rw [List.getD_eq_getElem?_getD] at he
    cases hrow : b.places[slot]? with
    | none => rw [hrow] at he; simp at he
    | some row =>
      rw [hrow] at he
      exact ⟨⟨row, slot⟩, hrow, ⟨e, sl⟩, he, rfl, rfl, rfl⟩

theorem allPlaces_map : b.allPlaces.map (·.2.2) = b.places.flatten := by
  simp only [allPlaces, List.map_flatMap, List.map_map, Function.comp_def]
  rw [List.flatMap_def]
  simp

theorem allPlaces_inj (hnd : b.places.flatten.Nodup) {x y : Nat × Nat × Nat} (hx : x ∈ b.allPlaces)
    (hy : y ∈ b.allPlaces) (h : x.2.2 = y.2.2) : x = y :=
  inj_of_nodup_map (allPlaces_map ▸ hnd) x hx y hy h

def placeAt (b : TileBuffer) (slot sl : Nat) : Nat := (b.places.getD slot []).getD sl 0

def sizeAt (b : TileBuffer) (slot : Nat) : Nat := b.sizes.getD slot 0

def Reaches (sl : Nat) (b : TileBuffer) : Prop :=
  ∀ slot < b.places.length, sl < (b.places.getD slot []).length

def heldAt (val : Nat → Int) (sl : Nat) (b : TileBuffer) : Int :=
  ((List.range b.places.length).map fun slot => val (b.placeAt slot sl) * val (b.sizeAt slot)).sum

def chosen (sol : Solution) (b : TileBuffer) : Option (Nat × Nat × Nat) :=
  b.allPlaces.find? fun (_, _, e) => sol.isSet e

def chosenBytes (sol : Solution) (sl : Nat) (b : TileBuffer) : Int :=
  match b.chosen sol with
  | some (pos, sl', _) => if sl' = sl then sol.value (b.sizeAt (pos - b.firstPos)) else 0
  | none => 0

theorem Placed.oneHot {m m' : Model} (hp : b.Placed m) (hg : m.Grows m') (hw : m'.WellFormed)
    {val : Nat → Int} (hone : m'.OneHot val) :
    ∃ w ∈ b.places.flatten, ∀ e ∈ b.places.flatten, val e = if e = w then 1 else 0 := by
  obtain ⟨ms, hms, hf⟩ := hp.group
  obtain ⟨v₀, hv₀, hval⟩ := hone ms (hg.groups ms hms)
  -- a member variable's node is the boolean paired with it
  have hexpr : ∀ e v, m.nodes[e]? = some (.var v) → (m'.vars.getD v default).expr = e := by
    intro e v he
    obtain ⟨info, hinfo, hexpr⟩ := hw.var_node e v (hg.nodes _ _ he)
    rw [Model.getD_vars hinfo, hexpr]
  obtain ⟨w, hw, hw₀⟩ : ∃ w ∈ b.places.flatten, m.nodes[w]? = some (.var v₀) := by
    obtain ⟨i, hi, rfl⟩ := List.getElem_of_mem hv₀
    have hlen := hf.length_eq
    exact ⟨_, List.getElem_mem (hlen ▸ hi), (List.forall₂_iff_get.1 hf).2 i (hlen ▸ hi) hi⟩
  refine ⟨w, hw, fun e he => ?_⟩
  obtain ⟨i, hi, rfl⟩ := List.getElem_of_mem he
  have hlen := hf.length_eq
  have hv : m.nodes[(b.places.flatten)[i]]? = some (.var ms[i]) :=
    (List.forall₂_iff_get.1 hf).2 i hi (hlen ▸ hi)
  rw [← hexpr _ _ hv, hval _ (List.getElem_mem _), hexpr _ _ hv]
  by_cases hvw : ms[i] = v₀
  · rw [if_pos hvw, if_pos]
    rw [hvw] at hv
    rw [← hexpr _ _ hv, hexpr _ _ hw₀]
  · rw [if_neg hvw, if_neg]
    intro heq
    rw [heq, hw₀] at hv
    exact hvw (Node.var.inj (Option.some.inj hv)).symm

theorem sum_range_ite (n k : Nat) (f : Nat → Int) :
    ((List.range n).map fun i => if i = k then f i else 0).sum = if k < n then f k else 0 := by
  induction n with
  | zero => simp
  | succ n ih =>
    rw [List.range_succ, List.map_append, List.sum_append, ih]
    by_cases hk : k = n
    · subst hk
      simp
    · by_cases hkn : k < n
      · simp [hkn, Nat.lt_succ_of_lt hkn, Ne.symm hk]
      · have : ¬ k < n + 1 := by omega
        simp [hkn, this, Ne.symm hk]

theorem chosen_eq_of_oneHot {sol : Solution} {w : Nat} (hnd : b.places.flatten.Nodup)
    (hval : ∀ e ∈ b.places.flatten, sol.value e = if e = w then 1 else 0) {x : Nat × Nat × Nat}
    (hx : x ∈ b.allPlaces) (hxw : x.2.2 = w) : b.chosen sol = some x := by
  cases hfind : b.chosen sol with
  | none =>
    refine absurd (List.find?_eq_none.1 hfind _ hx) ?_
    have hx' : x.2.2 ∈ b.places.flatten := allPlaces_map (b := b) ▸ List.mem_map_of_mem hx
    have hone : sol.value x.2.2 = 1 := by rw [hval _ hx', if_pos hxw]
    simp [Solution.isSet, hone]
  | some y =>
    have hy := List.mem_of_find?_eq_some hfind
    have hset := List.find?_some hfind
    have hyw : y.2.2 = w := by
      by_contra hne
      have hy' : y.2.2 ∈ b.places.flatten := allPlaces_map (b := b) ▸ List.mem_map_of_mem hy
      simp [Solution.isSet, hval _ hy', hne] at hset
    rw [allPlaces_inj hnd hy hx (hyw.trans hxw.symm)]

theorem heldAt_eq_chosenBytes {sol : Solution} {sl : Nat} (hnd : b.places.flatten.Nodup)
    (hw : ∃ w ∈ b.places.flatten, ∀ e ∈ b.places.flatten, sol.value e = if e = w then 1 else 0)
    (hr : b.Reaches sl) : b.heldAt sol.value sl = b.chosenBytes sol sl := by
  obtain ⟨w, hw, hval⟩ := hw
  obtain ⟨⟨pos, sl₀, w'⟩, hmem, hw'⟩ := List.mem_map.1 (allPlaces_map (b := b) ▸ hw)
  simp only at hw'
  subst hw'
  -- the solution chooses the placement of the one boolean it sets
  have hchosen : b.chosen sol = some (pos, sl₀, w') := chosen_eq_of_oneHot hnd hval hmem rfl
  obtain ⟨slot₀, rfl, hat₀⟩ := mem_allPlaces.1 hmem
  have hslot₀ : slot₀ < b.places.length := by
    by_contra hge
    rw [List.getD_eq_default _ _ (by omega)] at hat₀
    simp at hat₀
  -- each position's term is its size when it is the chosen one, and nothing otherwise
  have hterm : ∀ slot ∈ List.range b.places.length,
      sol.value (b.placeAt slot sl) * sol.value (b.sizeAt slot) =
        if slot = slot₀ then (if sl₀ = sl then sol.value (b.sizeAt slot) else 0) else 0 := by
    intro slot hslot
    have hslot := List.mem_range.1 hslot
    have hat : (b.places.getD slot [])[sl]? = some (b.placeAt slot sl) := by
      rw [placeAt, List.getD_eq_getElem _ _ (hr slot hslot), List.getElem?_eq_getElem (hr slot hslot)]
    have hm : (slot + b.firstPos, sl, b.placeAt slot sl) ∈ b.allPlaces := mem_allPlaces.2 ⟨slot, rfl, hat⟩
    have hflat : b.placeAt slot sl ∈ b.places.flatten := allPlaces_map (b := b) ▸ List.mem_map_of_mem hm
    rw [hval _ hflat]
    by_cases heq : b.placeAt slot sl = w'
    · have := allPlaces_inj hnd hm hmem heq
      simp only [Prod.mk.injEq] at this
      obtain ⟨hs, rfl, -⟩ := this
      obtain rfl : slot = slot₀ := by omega
      simp [heq]
    · rw [if_neg heq, zero_mul]
      split_ifs with h₁ h₂
      · subst h₁ h₂
        exact absurd (Option.some.inj (hat.symm.trans hat₀)) heq
      · rfl
      · rfl
  rw [heldAt, List.map_congr_left hterm, sum_range_ite, if_pos hslot₀, chosenBytes, hchosen]
  simp

theorem Placed.var_of_mem {m : Model} (hp : b.Placed m) {e : Nat} (he : e ∈ b.places.flatten) :
    ∃ v, m.nodes[e]? = some (.var v) := by
  obtain ⟨ms, -, hf⟩ := hp.group
  obtain ⟨i, hi, rfl⟩ := List.getElem_of_mem he
  exact ⟨_, (List.forall₂_iff_get.1 hf).2 i hi (hf.length_eq ▸ hi)⟩

theorem mem_positions_zipIdx {slot : Nat} (h : slot < b.places.length) :
    (slot + b.firstPos, slot) ∈ b.positions.zipIdx := by
  rw [List.mem_zipIdx_iff_getElem?]
  simp [positions, h]

theorem positions_zipIdx_snd : b.positions.zipIdx.map (·.2) = List.range b.places.length := by
  rw [List.zipIdx_map_snd, List.range_eq_range']
  simp [positions]

end TileBuffer

theorem runs_heldTerms (sl : Nat) : ∀ {held : List TileBuffer} {s s' : SolveState} {ts : List Nat},
    Runs (Tiler.heldTerms sl held) s ts s' → Steady s s' ∧
      (s.model.Built → (∀ b ∈ held, b.Placed s.model) →
        (∀ b ∈ held, b.Reaches sl) ∧ s'.model.SumsTo ts fun val => (held.map (·.heldAt val sl)).sum)
  | [], s, s', ts, h => by
    unfold Tiler.heldTerms at h
    rw [List.flatMapM_nil] at h
    obtain ⟨rfl, rfl⟩ := runs_pure.1 h
    exact ⟨Steady.refl _, fun _ _ => ⟨fun _ hb => absurd hb List.not_mem_nil, fun _ _ _ _ => rfl⟩⟩
  | b :: rest, s, s', ts, h => by
    unfold Tiler.heldTerms at h
    obtain ⟨ys, t, ys', h₁, h₂, rfl⟩ := runs_flatMapM_cons.1 h
    -- one term per position: the boolean at the level times the position's size
    have key := Moves.mapM_forall₂ (R := Steady) (I := fun t => t.model.Built ∧ b.Placed t.model)
      (Q := fun x y t => sl < (b.places.getD x.2 []).length ∧
        t.model.Denotes y fun val => val (b.placeAt x.2 sl) * val (b.sizeAt x.2)) ?hI ?hQ ?moves ?step h₁
    case hI => exact fun t t' hI hst => ⟨hst.built hI.1, hI.2.grows hst.grows⟩
    case hQ => exact fun x y t t' hQ hst => ⟨hQ.1, hQ.2.grows hst.grows⟩
    case moves =>
      intro x _
      exact Moves.bind (Moves.tree _) fun _ => Moves.bind (Moves.tree _) fun _ => steady_mul _ _
    case step =>
      rintro ⟨pos, slot⟩ hx t y t' ⟨hbuilt, hplaced⟩ hrun
      obtain ⟨place, t₁, hplace, hrun₁⟩ := runs_bind.1 hrun
      obtain ⟨hp, rfl⟩ := runs_tree.1 hplace
      obtain ⟨size, t₂, hsize, hrun₂⟩ := runs_bind.1 hrun₁
      obtain ⟨hs, rfl⟩ := runs_tree.1 hsize
      obtain ⟨m', hmul, rfl⟩ := runs_buildChecked.1 hrun₂
      have hslot : slot < b.places.length := by
        have := (List.getElem?_eq_some_iff.1 (List.mem_zipIdx_iff_getElem?.1 hx)).1
        simpa [TileBuffer.positions] using this
      have hrow := itemAt_eq_ok.1 hp
      have hsz := itemAt_eq_ok.1 hs
      have hat : b.placeAt slot sl = place := by
        rw [TileBuffer.placeAt, List.getD_eq_getElem?_getD, hrow, Option.getD_some]
      have hsa : b.sizeAt slot = size := by
        rw [TileBuffer.sizeAt, List.getD_eq_getElem?_getD, hsz, Option.getD_some]
      -- the boolean is a variable of the buffer's group, the size a word constant
      have hmem : place ∈ b.places.flatten :=
        List.mem_flatten.2 ⟨_, List.getD_eq_getElem _ _ hslot ▸ List.getElem_mem hslot,
          List.mem_of_getElem? hrow⟩
      obtain ⟨v, hv⟩ := hplaced.var_of_mem hmem
      have hw := hplaced.sizes size (List.mem_of_getElem? hsz)
      refine ⟨(List.getElem?_eq_some_iff.1 hrow).1, ?_⟩
      rw [hat, hsa]
      exact Model.Denotes.mul_var hbuilt.constantsNamed hv hw hmul
    obtain ⟨hst, hterms⟩ := key
    obtain ⟨hst', hrest⟩ := runs_heldTerms sl h₂
    refine ⟨hst.trans hst', fun hbuilt hplaced => ?_⟩
    have hb := hplaced b List.mem_cons_self
    obtain ⟨hreach, hdenote⟩ := (List.forall₂_and_left _ _).1 (hterms ⟨hbuilt, hb⟩)
    obtain ⟨hreach', hsum'⟩ := hrest (hst.built hbuilt) fun b' hb' =>
      (hplaced b' (List.mem_cons_of_mem _ hb')).grows hst.grows
    -- the positions are the slots below the number of rows
    have hsum : t.model.SumsTo ys (b.heldAt · sl) := by
      refine Model.SumsTo.congr (Model.SumsTo.of_forall₂ hdenote) fun val => ?_
      rw [TileBuffer.heldAt, ← TileBuffer.positions_zipIdx_snd, List.map_map]
      rfl
    refine ⟨fun b' hb' => ?_, ?_⟩
    · rcases List.mem_cons.1 hb' with rfl | hb'
      · exact fun slot hslot => hreach _ (TileBuffer.mem_positions_zipIdx hslot)
      · exact hreach' b' hb'
    · simpa using (hsum.grows hst'.grows).append hsum'

end TileSched
