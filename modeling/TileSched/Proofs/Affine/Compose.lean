import Mathlib
import TileSched.Affine.Map
import TileSched.Proofs.Affine.Arithmetic
/-! Substitution and composition in exact integers. Substituting replacements for the dimensions of
an expression evaluates as the expression at the replacements' values, each replacement read over
the first `n` dimensions of the new space (`value_substitute`). Composing two maps is therefore
applying one after the other: over input ranges that fit the first map's dimensions, or any
ranges when no expression of the first map has coefficients past its dimensions, the composed map
gives the second map's ranges at the first map's ranges, offsets through offsets and extents
through extents (`compose_image`). -/

namespace TileSched

theorem foldlM_ok_value {ε α β : Type} {f : β → α → Except ε β} (I : β → Prop) (V : β → Int) (F : α → Int) :
    ∀ {xs : List α} {b r : β}, xs.foldlM f b = .ok r → I b →
      (∀ b a b', a ∈ xs → I b → f b a = .ok b' → I b' ∧ V b' = V b + F a) →
      I r ∧ V r = V b + (xs.map F).sum
  | [], b, r, h, hb, _ => by
    simp only [List.foldlM_nil, pure_eq_ok] at h
    subst h
    simp [hb]
  | a :: xs, b, r, h, hb, step => by
    obtain ⟨b', hb', hr⟩ := bind_eq_ok.1 (by simpa only [List.foldlM_cons] using h)
    obtain ⟨hI, hV⟩ := step b a b' List.mem_cons_self hb hb'
    obtain ⟨hIr, hVr⟩ := foldlM_ok_value I V F hr hI fun c x c' hx => step c x c' (List.mem_cons_of_mem _ hx)
    rw [hVr, hV, List.map_cons, List.sum_cons, Int.add_assoc]
    exact ⟨hIr, rfl⟩

theorem sum_map_filter_of_zero {α : Type} (P : α → Bool) (F : α → Int) (hF : ∀ a, P a = false → F a = 0) :
    ∀ l : List α, ((l.filter P).map F).sum = (l.map F).sum
  | [] => rfl
  | a :: l => by
    rw [List.filter_cons]
    cases hP : P a with
    | true => simp [sum_map_filter_of_zero P F hF l]
    | false => simp [hF a hP, sum_map_filter_of_zero P F hF l]

theorem foldl_max_le_iff : ∀ (l : List Nat) (a k : Nat), l.foldl max a ≤ k ↔ a ≤ k ∧ ∀ x ∈ l, x ≤ k
  | [], a, k => by simp
  | y :: l, a, k => by
    rw [List.foldl_cons, foldl_max_le_iff l, max_le_iff, List.forall_mem_cons, and_assoc]

namespace AffineExpr

theorem sum_zipIdx_getD (cs : List Int) : ∀ vs : List Int,
    ((cs.zipIdx).map fun p => p.1 * vs.getD p.2 0).sum = dot cs vs := by
  induction cs with
  | nil => intro vs; rfl
  | cons c cs ih =>
    intro vs
    cases vs with
    | nil => simp
    | cons v vs =>
      have hshift : ((cs.zipIdx).map (Prod.map id (· + 1))).map (fun p => p.1 * (v :: vs).getD p.2 0) =
          (cs.zipIdx).map fun p => p.1 * vs.getD p.2 0 := by
        simp [Function.comp_def]
      rw [List.zipIdx_cons', List.map_cons, List.sum_cons, hshift, ih vs, dot_cons_cons]
      simp

theorem value_take_dims {e : AffineExpr} {n : Nat} (h : e.coeffs.length ≤ n) (dims syms : List Int) :
    e.value (dims.take n) syms = e.value dims syms := by
  simp only [value, dot_take_of_length_le h]

theorem value_take_syms {e : AffineExpr} {n : Nat} (h : e.symCoeffs.length ≤ n) (dims syms : List Int) :
    e.value dims (syms.take n) = e.value dims syms := by
  simp only [value, dot_take_of_length_le h]

def repValues (reps : List AffineExpr) (n : Nat) (dims syms : List Int) : List Int :=
  reps.map fun r => r.value (dims.take n) syms

section Substitute

variable {e : AffineExpr} {reps : List AffineExpr} {n : Nat}

theorem substStep_eq_ok {N : Nat} (hN : ∀ r ∈ reps, r.nSym ≤ N) {acc acc' : AffineExpr} {c : Int} {i : Nat}
    (hacc : acc.nDim = n ∧ acc.nSym = N)
    (h : (match reps[i]? with
      | some rep => do acc.accumulate (← rep.scale c)
      | none => pure acc) = .ok acc') :
    (acc'.nDim = n ∧ acc'.nSym = N) ∧
      ∀ dims syms, acc'.value dims syms = acc.value dims syms + c * (repValues reps n dims syms).getD i 0 := by
  split at h
  · rename_i rep hrep
    obtain ⟨s, hs, h⟩ := bind_eq_ok.1 h
    obtain ⟨hd, hsym, hval⟩ := accumulate_eq_ok h
    refine ⟨⟨hd.trans hacc.1, hsym.trans hacc.2⟩, fun dims syms => ?_⟩
    have hget : (repValues reps n dims syms).getD i 0 = rep.value (dims.take n) syms := by
      simp [repValues, List.getD_eq_getElem?_getD, hrep]
    rw [hval, value_scale hs, hacc.1, hacc.2, hget,
      value_take_syms (hN rep (List.mem_of_getElem? hrep))]
  · rename_i hnone
    rw [pure_eq_ok] at h
    subst h
    refine ⟨hacc, fun dims syms => ?_⟩
    have hget : (repValues reps n dims syms).getD i 0 = 0 := by
      simp [repValues, List.getD_eq_getElem?_getD, hnone]
    rw [hget, Int.mul_zero, Int.add_zero]

theorem value_substitute {r : AffineExpr} (h : e.substitute reps n = .ok r) :
    r.nDim = n ∧ r.nSym = max e.nSym ((reps.map AffineExpr.nSym).foldl max 0) ∧
      ∀ dims syms, r.value dims syms = e.value (repValues reps n dims syms) syms := by
  unfold substitute at h
  have hN : ∀ rep ∈ reps, rep.nSym ≤ max e.nSym ((reps.map AffineExpr.nSym).foldl max 0) := fun rep hrep =>
    le_trans (((foldl_max_le_iff _ 0 _).1 le_rfl).2 _ (List.mem_map_of_mem hrep)) (le_max_right _ _)
  have he : e.symCoeffs.length ≤ max e.nSym ((reps.map AffineExpr.nSym).foldl max 0) := le_max_left _ _
  -- the fold adds `c` times the replacement's value for every coefficient `c` that is not zero
  have hfold := fun dims syms => foldlM_ok_value
    (fun acc : AffineExpr => acc.nDim = n ∧ acc.nSym = max e.nSym ((reps.map AffineExpr.nSym).foldl max 0))
    (fun acc => acc.value dims syms) (fun p : Int × Nat => p.1 * (repValues reps n dims syms).getD p.2 0) h
    (by simp [nDim, nSym]) fun acc p acc' _ hacc hstep => by
      obtain ⟨c, i⟩ := p
      obtain ⟨hI, hV⟩ := substStep_eq_ok hN hacc hstep
      exact ⟨hI, hV dims syms⟩
  refine ⟨(hfold [] []).1.1, (hfold [] []).1.2, fun dims syms => ?_⟩
  -- the coefficients that are zero, which the fold skips, add nothing to the sum
  rw [(hfold dims syms).2, sum_map_filter_of_zero _ _ (fun p hp => by
    obtain ⟨c, i⟩ := p
    simp only [bne_eq_false_iff_eq] at hp
    rw [hp, Int.zero_mul]), sum_zipIdx_getD]
  simp only [value, dot_replicate_zero, dot_map_range_getD he]
  ring

theorem substitute_onlyOverflows (e : AffineExpr) (reps : List AffineExpr) (n : Nat) :
    OnlyOverflows (e.substitute reps n) := by
  unfold substitute
  refine .foldlM fun acc p _ => ?_
  obtain ⟨c, i⟩ := p
  dsimp only
  split
  · exact .bind (scale_onlyOverflows _ _) fun _ _ => accumulate_onlyOverflows _ _
  · exact .ok _

/-- Substitution in exact integers. Unless a coefficient overflows, substituting replacements over
at most `n` dimensions returns an expression over `n` dimensions, with as many symbols as the widest
operand, whose value at any dimension and symbol values is the expression's value at the
replacements' values. -/
theorem substitute_evaluates (e : AffineExpr) (reps : List AffineExpr) (n : Nat)
    (hreps : ∀ rep ∈ reps, rep.nDim ≤ n) :
    (∃ op, e.substitute reps n = .error (.overflow op)) ∨
      ∃ r, e.substitute reps n = .ok r ∧ r.nDim = n ∧
        (∀ k, r.nSym ≤ k ↔ e.nSym ≤ k ∧ ∀ rep ∈ reps, rep.nSym ≤ k) ∧
        ∀ dims syms, r.value dims syms = e.value (reps.map fun rep => rep.value dims syms) syms := by
  rcases (substitute_onlyOverflows e reps n).cases with ⟨r, hr⟩ | hover
  · obtain ⟨hdim, hsym, hval⟩ := value_substitute hr
    -- a replacement over at most `n` dimensions ignores the dimension values past the first `n`
    have hvals : ∀ dims syms, repValues reps n dims syms = reps.map fun rep => rep.value dims syms :=
      fun dims syms => List.map_congr_left fun rep hrep => value_take_dims (hreps rep hrep) dims syms
    refine .inr ⟨r, hr, hdim, fun k => ?_, fun dims syms => by rw [hval, hvals]⟩
    rw [hsym, max_le_iff, foldl_max_le_iff, List.forall_mem_map]
    simp
  · exact .inl hover

/-- `2·d0 + d1` with `d0 := d1` and `d1 := 3·d0 + 1` over two dimensions is `3·d0 + 2·d1 + 1`. -/
theorem substitute_evaluates_twoDims :
    ∃ r, (⟨0, [2, 1], []⟩ : AffineExpr).substitute [⟨0, [0, 1], []⟩, ⟨1, [3, 0], []⟩] 2 = .ok r ∧
      ∀ dims syms, r.value dims syms =
        (⟨0, [2, 1], []⟩ : AffineExpr).value
          ([⟨0, [0, 1], []⟩, ⟨1, [3, 0], []⟩].map fun rep : AffineExpr => rep.value dims syms) syms := by
  have hok : (⟨0, [2, 1], []⟩ : AffineExpr).substitute [⟨0, [0, 1], []⟩, ⟨1, [3, 0], []⟩] 2 =
      .ok ⟨1, [3, 2], []⟩ := by
    decide
  rcases substitute_evaluates ⟨0, [2, 1], []⟩ [⟨0, [0, 1], []⟩, ⟨1, [3, 0], []⟩] 2 (by decide) with
    ⟨op, hover⟩ | ⟨r, hr, -, -, hval⟩
  · rw [hok] at hover
    cases hover
  · exact ⟨r, hr, hval⟩

end Substitute

end AffineExpr

namespace AffineMap

/-- The exact result ranges at input ranges and symbol values: offsets over the input offsets,
extents over the input extents. -/
def image (m : AffineMap) (ranges : List (Int × Int)) (syms : List Int) : List (Int × Int) :=
  m.results.map fun r => (r.offset.value (ranges.map (·.1)) syms, r.extent.value (ranges.map (·.2)) syms)

theorem applyRanges_eq_image (m : AffineMap) (ranges : List (Int × Int)) (syms : List Int) :
    m.applyRanges ranges syms = .ok (m.image ranges syms) ∨ ∃ op, m.applyRanges ranges syms = .error (.overflow op) := by
  have hsafe : OnlyOverflows (m.applyRanges ranges syms) :=
    .mapM fun r _ => .bind (AffineExpr.evaluate_onlyOverflows _ _ _) fun _ _ =>
      .bind (AffineExpr.evaluate_onlyOverflows _ _ _) fun _ _ => .ok _
  rcases hsafe.cases with ⟨ys, hys⟩ | hover
  · left
    rw [hys, mapM_ok_eq_map (fun r p hp => ?_) hys]
    · rfl
    obtain ⟨o, ho, hp⟩ := bind_eq_ok.1 hp
    obtain ⟨x, hx, hp⟩ := bind_eq_ok.1 hp
    rw [pure_eq_ok] at hp
    rw [← hp, AffineExpr.evaluate_eq_ok ho, AffineExpr.evaluate_eq_ok hx]
  · exact .inr hover

theorem compose_eq_ok {m o c : AffineMap} (h : m.compose o = .ok c) :
    c.nDim = m.nDim ∧ List.Forall₂ (fun r r' =>
      r.offset.substitute (m.results.map (·.offset)) m.nDim = .ok r'.offset ∧
        r.extent.substitute (m.results.map (·.extent)) m.nDim = .ok r'.extent) o.results c.results := by
  unfold compose at h
  split at h
  · cases h
  obtain ⟨c', hc', h⟩ := bind_eq_ok.1 (mapError_eq_ok.1 h)
  rw [pure_eq_ok] at h
  subst h
  refine ⟨rfl, (mapM_ok_forall₂ hc').imp fun r r' hr => ?_⟩
  obtain ⟨off, hoff, hr⟩ := bind_eq_ok.1 hr
  obtain ⟨ext, hext, hr⟩ := bind_eq_ok.1 hr
  rw [pure_eq_ok] at hr
  subst hr
  exact ⟨hoff, hext⟩

theorem compose_onlyOverflows {m o : AffineMap} (h : m.nOut = o.nIn) :
    ∀ err, m.compose o = .error err → ∃ op, err = .fault (.overflow op) := by
  intro err herr
  unfold compose at herr
  rw [if_neg (not_not.2 h)] at herr
  obtain ⟨f, hf, rfl⟩ := mapError_eq_error.1 herr
  have hsafe : OnlyOverflows (o.results.mapM fun r => do
      let off ← r.offset.substitute (m.results.map (·.offset)) m.nDim
      let ext ← r.extent.substitute (m.results.map (·.extent)) m.nDim
      return (⟨off, ext⟩ : AffineRange)) :=
    .mapM fun r _ => .bind (AffineExpr.substitute_onlyOverflows _ _ _) fun _ _ =>
      .bind (AffineExpr.substitute_onlyOverflows _ _ _) fun _ _ => .ok _
  obtain ⟨op, rfl⟩ := OnlyOverflows.bind hsafe (fun _ _ => .ok _) f hf
  exact ⟨op, rfl⟩

def Narrow (m : AffineMap) : Prop := ∀ r ∈ m.results, r.offset.nDim ≤ m.nDim ∧ r.extent.nDim ≤ m.nDim

theorem repValues_eq_map {m : AffineMap} {ranges : List (Int × Int)} (hfit : ranges.length ≤ m.nDim ∨ m.Narrow)
    (syms : List Int) :
    AffineExpr.repValues (m.results.map (·.offset)) m.nDim (ranges.map (·.1)) syms =
        (m.image ranges syms).map (·.1) ∧
      AffineExpr.repValues (m.results.map (·.extent)) m.nDim (ranges.map (·.2)) syms =
        (m.image ranges syms).map (·.2) := by
  have hoff : ∀ r ∈ m.results,
      r.offset.value ((ranges.map (·.1)).take m.nDim) syms = r.offset.value (ranges.map (·.1)) syms := by
    intro r hr
    rcases hfit with hlen | hnarrow
    · rw [List.take_of_length_le (by simpa using hlen)]
    · exact AffineExpr.value_take_dims (hnarrow r hr).1 _ _
  have hext : ∀ r ∈ m.results,
      r.extent.value ((ranges.map (·.2)).take m.nDim) syms = r.extent.value (ranges.map (·.2)) syms := by
    intro r hr
    rcases hfit with hlen | hnarrow
    · rw [List.take_of_length_le (by simpa using hlen)]
    · exact AffineExpr.value_take_dims (hnarrow r hr).2 _ _
  simp only [AffineExpr.repValues, image, List.map_map]
  exact ⟨List.map_congr_left hoff, List.map_congr_left hext⟩

theorem image_compose {a b c : AffineMap} (h : a.compose b = .ok c) {ranges : List (Int × Int)}
    (hfit : ranges.length ≤ a.nDim ∨ a.Narrow) (syms : List Int) :
    c.image ranges syms = b.image (a.image ranges syms) syms := by
  obtain ⟨hdim, hall⟩ := compose_eq_ok h
  obtain ⟨hoff, hext⟩ := repValues_eq_map hfit syms
  generalize a.image ranges syms = ys at hoff hext ⊢
  unfold image
  generalize b.results = rs at hall ⊢
  generalize c.results = rs' at hall ⊢
  -- result by result: each composed range is the second map's range substituted
  induction hall with
  | nil => rfl
  | cons hr _ ih =>
    rw [List.map_cons, List.map_cons, ih, (AffineExpr.value_substitute hr.1).2.2,
      (AffineExpr.value_substitute hr.2).2.2, hoff, hext]

/-- Composition in exact integers. Composing fails on an arity mismatch exactly when the first
map's results are not the second's inputs. Otherwise it returns, unless a coefficient overflows, a
map from the first map's inputs to the second map's results whose image, at input ranges that fit
the first map's dimensions or at any ranges when the first map is narrow, is the second map's
image at the first map's image: offsets composed with offsets and extents with extents. -/
theorem compose_image (a b : AffineMap) :
    ((∃ msg, a.compose b = .error (.affineMismatch msg)) ↔ a.nOut ≠ b.nIn) ∧
      (a.nOut = b.nIn → (∃ op, a.compose b = .error (.fault (.overflow op))) ∨
        ∃ c, a.compose b = .ok c ∧ c.nIn = a.nIn ∧ c.nOut = b.nOut ∧
          ∀ ranges syms, ranges.length ≤ a.nDim ∨ a.Narrow →
            c.image ranges syms = b.image (a.image ranges syms) syms) := by
  refine ⟨⟨fun ⟨msg, h⟩ heq => ?_, fun hne => ⟨_, by unfold compose; rw [if_pos hne]⟩⟩, fun heq => ?_⟩
  · obtain ⟨op, hop⟩ := compose_onlyOverflows heq _ h
    cases hop
  · cases hc : a.compose b with
    | error err =>
      obtain ⟨op, rfl⟩ := compose_onlyOverflows heq err hc
      exact .inl ⟨op, rfl⟩
    | ok c =>
      obtain ⟨hdim, hall⟩ := compose_eq_ok hc
      exact .inr ⟨c, rfl, hdim, hall.length_eq.symm, fun ranges syms hfit => image_compose hc hfit syms⟩

example : (do
    let p ← liftFault (AffineMap.primitive [1, 1, 8])
    let c ← p.compose (AffineMap.permutation 3 [0, 2])
    liftFault (c.applyBounds [4, 5, 2])) = (.ok [4, 16] : Outcome (List Int)) := by
  rfl

end AffineMap

end TileSched
