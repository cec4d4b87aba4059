import Mathlib
import TileSched.Fault
/-! Successful computations in `Except`: a bind, a fold or a map that returns a value is taken
apart into the steps that returned values. -/

namespace TileSched

variable {ε α β : Type}

theorem bind_eq_ok {x : Except ε α} {f : α → Except ε β} {b : β} :
    x >>= f = .ok b ↔ ∃ a, x = .ok a ∧ f a = .ok b := by
  cases x <;> simp [bind, Except.bind]

theorem bind_eq_error {x : Except ε α} {f : α → Except ε β} {e : ε} :
    x >>= f = .error e ↔ x = .error e ∨ ∃ a, x = .ok a ∧ f a = .error e := by
  cases x <;> simp [bind, Except.bind]

theorem mapError_eq_ok {ε' : Type} {x : Except ε α} {f : ε → ε'} {a : α} :
    x.mapError f = .ok a ↔ x = .ok a := by
  cases x <;> simp [Except.mapError]

theorem mapError_eq_error {ε' : Type} {x : Except ε α} {f : ε → ε'} {e : ε'} :
    x.mapError f = .error e ↔ ∃ e', x = .error e' ∧ e = f e' := by
  cases x <;> simp [Except.mapError, eq_comm]

theorem map_eq_ok {x : Except ε α} {f : α → β} {b : β} :
    f <$> x = .ok b ↔ ∃ a, x = .ok a ∧ f a = b := by
  cases x <;> simp [Functor.map, Except.map]

theorem pure_eq_ok {a b : α} : (pure a : Except ε α) = .ok b ↔ a = b := by
  simp [pure, Except.pure]

theorem toOption_eq_some {x : Except ε α} {a : α} : x.toOption = some a ↔ x = .ok a := by
  cases x <;> simp [Except.toOption]

theorem foldlM_ok_inv {f : β → α → Except ε β} (P : β → Prop) :
    ∀ {xs : List α} {b r : β}, xs.foldlM f b = .ok r → P b →
      (∀ b a b', a ∈ xs → P b → f b a = .ok b' → P b') → P r
  | [], b, r, h, hb, _ => by
    simp only [List.foldlM_nil, pure_eq_ok] at h
    exact h ▸ hb
  | a :: xs, b, r, h, hb, step => by
    obtain ⟨b', hb', hr⟩ := bind_eq_ok.1 (by simpa only [List.foldlM_cons] using h)
    exact foldlM_ok_inv P hr (step b a b' List.mem_cons_self hb hb')
      fun c x c' hx => step c x c' (List.mem_cons_of_mem _ hx)

theorem foldlM_ok_rel {f : β → α → Except ε β} (R : β → β → Prop) (refl : ∀ b, R b b)
    (trans : ∀ a b c, R a b → R b c → R a c) :
    ∀ {xs : List α} {b r : β}, xs.foldlM f b = .ok r →
      (∀ b a b', a ∈ xs → f b a = .ok b' → R b b') → R b r
  | [], b, r, h, _ => by
    simp only [List.foldlM_nil, pure_eq_ok] at h
    exact h ▸ refl b
  | a :: xs, b, r, h, step => by
    obtain ⟨b', hb', hr⟩ := bind_eq_ok.1 (by simpa only [List.foldlM_cons] using h)
    exact trans _ _ _ (step b a b' List.mem_cons_self hb')
      (foldlM_ok_rel R refl trans hr fun c x c' hx => step c x c' (List.mem_cons_of_mem _ hx))

theorem foldlM_ok_step_mem {f : β → α → Except ε β} (P Q : β → Prop) {x : α} :
    ∀ {xs : List α} {b r : β}, xs.foldlM f b = .ok r → x ∈ xs → P b →
      (∀ b a b', a ∈ xs → P b → f b a = .ok b' → P b') →
      (∀ b b', P b → f b x = .ok b' → Q b') →
      (∀ b a b', a ∈ xs → P b → Q b → f b a = .ok b' → Q b') → Q r
  | [], _, _, _, hx, _, _, _, _ => absurd hx List.not_mem_nil
  | a :: xs, b, r, h, hx, hb, hP, hQx, hQ => by
    obtain ⟨b₁, h₁, h⟩ := bind_eq_ok.1 (by simpa only [List.foldlM_cons] using h)
    have hb₁ := hP b a b₁ List.mem_cons_self hb h₁
    by_cases hax : a = x
    · -- the step at `x` establishes `Q`, and the rest of the fold keeps it
      subst hax
      refine (foldlM_ok_inv (fun c => P c ∧ Q c) h ⟨hb₁, hQx b b₁ hb h₁⟩ ?_).2
      intro c y c' hy hc hstep
      exact ⟨hP c y c' (List.mem_cons_of_mem _ hy) hc.1 hstep,
        hQ c y c' (List.mem_cons_of_mem _ hy) hc.1 hc.2 hstep⟩
    · exact foldlM_ok_step_mem P Q h ((List.mem_cons.1 hx).resolve_left (Ne.symm hax)) hb₁
        (fun c y c' hy => hP c y c' (List.mem_cons_of_mem _ hy)) hQx
        (fun c y c' hy => hQ c y c' (List.mem_cons_of_mem _ hy))

theorem mapM_ok_mem {f : α → Except ε β} :
    ∀ {xs : List α} {ys : List β}, xs.mapM f = .ok ys → ∀ y ∈ ys, ∃ x ∈ xs, f x = .ok y
  | [], ys, h, y, hy => by
    simp only [List.mapM_nil, pure_eq_ok] at h
    simp [← h] at hy
  | x :: xs, ys, h, y, hy => by
    rw [List.mapM_cons] at h
    obtain ⟨z, hz, h⟩ := bind_eq_ok.1 h
    obtain ⟨zs, hzs, h⟩ := bind_eq_ok.1 h
    rw [pure_eq_ok] at h
    subst h
    rcases List.mem_cons.1 hy with rfl | hy
    · exact ⟨x, List.mem_cons_self, hz⟩
    · obtain ⟨x', hx', hf⟩ := mapM_ok_mem hzs y hy
      exact ⟨x', List.mem_cons_of_mem _ hx', hf⟩

theorem mapM_ok_of_mem {f : α → Except ε β} :
    ∀ {xs : List α} {ys : List β}, xs.mapM f = .ok ys → ∀ x ∈ xs, ∃ y ∈ ys, f x = .ok y
  | [], _, _, x, hx => absurd hx List.not_mem_nil
  | x :: xs, ys, h, x', hx' => by
    rw [List.mapM_cons] at h
    obtain ⟨z, hz, h⟩ := bind_eq_ok.1 h
    obtain ⟨zs, hzs, h⟩ := bind_eq_ok.1 h
    rw [pure_eq_ok] at h
    subst h
    rcases List.mem_cons.1 hx' with rfl | hx'
    · exact ⟨z, List.mem_cons_self, hz⟩
    · obtain ⟨y, hy, hf⟩ := mapM_ok_of_mem hzs x' hx'
      exact ⟨y, List.mem_cons_of_mem _ hy, hf⟩

theorem mapM_ok_forall₂ {f : α → Except ε β} :
    ∀ {xs : List α} {ys : List β}, xs.mapM f = .ok ys → List.Forall₂ (fun x y => f x = .ok y) xs ys
  | [], ys, h => by
    simp only [List.mapM_nil, pure_eq_ok] at h
    subst h
    exact .nil
  | x :: xs, ys, h => by
    rw [List.mapM_cons] at h
    obtain ⟨z, hz, h⟩ := bind_eq_ok.1 h
    obtain ⟨zs, hzs, h⟩ := bind_eq_ok.1 h
    rw [pure_eq_ok] at h
    subst h
    exact .cons hz (mapM_ok_forall₂ hzs)

theorem mapM_ok_eq_map {f : α → Except ε β} {g : α → β} (hf : ∀ x r, f x = .ok r → r = g x) :
    ∀ {xs : List α} {ys : List β}, xs.mapM f = .ok ys → ys = xs.map g
  | [], ys, h => by
    simp only [List.mapM_nil, pure_eq_ok] at h
    simp [← h]
  | x :: xs, ys, h => by
    rw [List.mapM_cons] at h
    obtain ⟨z, hz, h⟩ := bind_eq_ok.1 h
    obtain ⟨zs, hzs, h⟩ := bind_eq_ok.1 h
    rw [pure_eq_ok] at h
    rw [← h, hf x z hz, mapM_ok_eq_map hf hzs, List.map_cons]

theorem mapM_eq_ok_map {f : α → Except ε β} {g : α → β} :
    ∀ {xs : List α}, (∀ x ∈ xs, f x = .ok (g x)) → xs.mapM f = .ok (xs.map g)
  | [], _ => rfl
  | x :: xs, h => by
    rw [List.mapM_cons, h x List.mem_cons_self, mapM_eq_ok_map fun y hy => h y (List.mem_cons_of_mem _ hy)]
    rfl

theorem mapM_ok_map_fst {γ : Type} {f : α → Except ε (α × γ)} (hf : ∀ x r, f x = .ok r → r.1 = x)
    {xs : List α} {ys : List (α × γ)} (h : xs.mapM f = .ok ys) : ys.map Prod.fst = xs := by
  have hall := mapM_ok_forall₂ h
  clear h
  induction hall with
  | nil => rfl
  | cons hxy _ ih => rw [List.map_cons, hf _ _ hxy, ih]

theorem filterMapM_eq_ok_filterMap {f : α → Except ε (Option β)} {g : α → Option β} :
    ∀ {xs : List α}, (∀ x ∈ xs, f x = .ok (g x)) → xs.filterMapM f = .ok (xs.filterMap g)
  | [], _ => rfl
  | x :: xs, hf => by
    rw [List.filterMapM_cons, hf x List.mem_cons_self, List.filterMap_cons]
    have ih := filterMapM_eq_ok_filterMap fun y hy => hf y (List.mem_cons_of_mem x hy)
    cases g x <;> simp [ih, bind, Except.bind, pure, Except.pure]

theorem forM_eq_ok {f : α → Except ε PUnit} :
    ∀ {xs : List α}, xs.forM f = .ok () → ∀ x ∈ xs, f x = .ok ()
  | [], _, _, hx => nomatch hx
  | y :: xs, h, x, hx => by
    obtain ⟨⟨⟩, hy, hxs⟩ := bind_eq_ok.1 h
    rcases List.mem_cons.1 hx with rfl | hx
    · exact hy
    · exact forM_eq_ok hxs x hx

theorem foldlM_ok_sum {f : Int → α → Except ε Int} (F : α → Int) :
    ∀ {xs : List α} {t r : Int}, xs.foldlM f t = .ok r →
      (∀ t a t', a ∈ xs → f t a = .ok t' → t' = t + F a) → r = t + (xs.map F).sum
  | [], t, r, h, _ => by
    simp only [List.foldlM_nil, pure_eq_ok] at h
    simp [h]
  | a :: xs, t, r, h, step => by
    obtain ⟨t', ht', hr⟩ := bind_eq_ok.1 (by simpa only [List.foldlM_cons] using h)
    rw [foldlM_ok_sum F hr fun c x c' hx => step c x c' (List.mem_cons_of_mem _ hx),
      step t a t' List.mem_cons_self ht', List.map_cons, List.sum_cons, Int.add_assoc]

theorem foldlM_exists_ok {f : α → β → Except ε α} (I : α → Prop) :
    ∀ {xs : List β} {a : α}, I a → (∀ a b, b ∈ xs → I a → ∃ a', f a b = .ok a' ∧ I a') →
      ∃ r, xs.foldlM f a = .ok r ∧ I r
  | [], a, ha, _ => ⟨a, rfl, ha⟩
  | b :: xs, a, ha, hstep => by
    obtain ⟨a', hb, ha'⟩ := hstep a b List.mem_cons_self ha
    obtain ⟨r, hr, hIr⟩ := foldlM_exists_ok I ha' fun a'' b' hb' => hstep a'' b' (List.mem_cons_of_mem _ hb')
    refine ⟨r, ?_, hIr⟩
    rw [List.foldlM_cons, hb]
    exact hr

theorem mapM_exists_ok {f : β → Except ε α} (P : α → Prop) :
    ∀ {xs : List β}, (∀ x ∈ xs, ∃ y, f x = .ok y ∧ P y) → ∃ ys, xs.mapM f = .ok ys ∧ ∀ y ∈ ys, P y
  | [], _ => ⟨[], rfl, fun _ h => absurd h List.not_mem_nil⟩
  | x :: xs, h => by
    obtain ⟨y, hy, hPy⟩ := h x List.mem_cons_self
    obtain ⟨ys, hys, hPys⟩ := mapM_exists_ok P fun x' hx' => h x' (List.mem_cons_of_mem _ hx')
    refine ⟨y :: ys, ?_, ?_⟩
    · rw [List.mapM_cons, hy, hys]
      rfl
    · rintro y' (_ | ⟨_, hy'⟩)
      · exact hPy
      · exact hPys y' hy'

theorem exists_bind_ok {P : α → Prop} {x : Except ε β} {f : β → Except ε α} {b : β} (hx : x = .ok b)
    (hf : ∃ a, f b = .ok a ∧ P a) : ∃ a, x >>= f = .ok a ∧ P a := by
  rw [hx]
  exact hf

theorem exists_bind_of_exists {P : α → Prop} {Q : β → Prop} {x : Except ε β} {f : β → Except ε α}
    (hx : ∃ b, x = .ok b ∧ Q b) (hf : ∀ b, Q b → ∃ a, f b = .ok a ∧ P a) : ∃ a, x >>= f = .ok a ∧ P a := by
  obtain ⟨b, hb, hQ⟩ := hx
  exact exists_bind_ok hb (hf b hQ)

theorem entryAt_eq_ok {xs : Array α} {i : Nat} {a : α} : entryAt xs i = .ok a ↔ xs[i]? = some a := by
  unfold entryAt
  split <;> simp_all

theorem itemAt_eq_ok {xs : List α} {i : Nat} {a : α} : itemAt xs i = .ok a ↔ xs[i]? = some a := by
  unfold itemAt
  split <;> simp_all

end TileSched
