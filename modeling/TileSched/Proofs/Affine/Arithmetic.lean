import Mathlib
import TileSched.Affine.Expr
import TileSched.Proofs.Results
/-! The exact meaning of affine expressions. An expression's value at dimension and symbol values is
its constant plus each coefficient times its value, a term without a value left out. Word
evaluation computes that value unless a partial result overflows, and stops for no other reason.
Scaling and negation scale the value. A sum of expressions over the same dimensions adds the
values of its operands, except that it keeps the symbols of its first operand only: the second
operand is read with the symbol values past them left out (`value_add`), so `a + b` and `b + a`
differ in value as soon as `b` has a symbol term past the symbols of `a`
(`add_drops_extra_symbols`). -/

namespace TileSched

def OnlyOverflows {α : Type} (x : Except Fault α) : Prop :=
  ∀ f, x = .error f → ∃ op, f = .overflow op

namespace OnlyOverflows

variable {α β : Type}

theorem ok (a : α) : OnlyOverflows (.ok a : Except Fault α) := fun _ h => by cases h

theorem check (op : ArithOp) (v : Int) : OnlyOverflows (I64.check op v) := by
  intro f h
  unfold I64.check at h
  split at h
  · cases h
  · cases h
    exact ⟨op, rfl⟩

theorem bind {x : Except Fault α} {g : α → Except Fault β} (hx : OnlyOverflows x)
    (hg : ∀ a, x = .ok a → OnlyOverflows (g a)) : OnlyOverflows (x >>= g) := by
  intro f h
  rcases bind_eq_error.1 h with h | ⟨a, ha, h⟩
  · exact hx f h
  · exact hg a ha f h

theorem mapM {f : α → Except Fault β} :
    ∀ {xs : List α}, (∀ x ∈ xs, OnlyOverflows (f x)) → OnlyOverflows (xs.mapM f)
  | [], _ => ok []
  | x :: xs, h => by
    rw [List.mapM_cons]
    refine bind (h x List.mem_cons_self) fun y _ => bind (mapM fun x' hx' => h x' (List.mem_cons_of_mem _ hx'))
      fun ys _ => ok (y :: ys)

theorem foldlM {f : β → α → Except Fault β} :
    ∀ {xs : List α} {b : β}, (∀ b, ∀ x ∈ xs, OnlyOverflows (f b x)) → OnlyOverflows (xs.foldlM f b)
  | [], b, _ => ok b
  | x :: xs, b, h => by
    rw [List.foldlM_cons]
    exact bind (h b x List.mem_cons_self) fun b' _ =>
      foldlM fun c x' hx' => h c x' (List.mem_cons_of_mem _ hx')

theorem cases {x : Except Fault α} (h : OnlyOverflows x) : (∃ a, x = .ok a) ∨ ∃ op, x = .error (.overflow op) := by
  cases x with
  | ok a => exact .inl ⟨a, rfl⟩
  | error f =>
    obtain ⟨op, rfl⟩ := h f rfl
    exact .inr ⟨op, rfl⟩

end OnlyOverflows

namespace I64

theorem check_eq_ok {op : ArithOp} {v r : Int} (h : check op v = .ok r) : r = v := by
  unfold check at h
  split at h
  · cases h
    rfl
  · cases h

theorem add_eq_ok {a b r : Int} (h : add a b = .ok r) : r = a + b := check_eq_ok h

theorem mul_eq_ok {a b r : Int} (h : mul a b = .ok r) : r = a * b := check_eq_ok h

end I64

namespace AffineExpr

def dot (cs vs : List Int) : Int := (List.zipWith (· * ·) cs vs).sum

/-- The exact value at dimension values `dims` and symbol values `syms`; as in evaluation, a term
without a value is left out. -/
def value (e : AffineExpr) (dims syms : List Int) : Int :=
  e.constant + dot e.coeffs dims + dot e.symCoeffs syms

section Dot

@[simp] theorem dot_nil_left (vs : List Int) : dot [] vs = 0 := rfl

@[simp] theorem dot_nil_right (cs : List Int) : dot cs [] = 0 := by simp [dot]

@[simp] theorem dot_cons_cons (c v : Int) (cs vs : List Int) : dot (c :: cs) (v :: vs) = c * v + dot cs vs := by
  simp [dot]

theorem dot_take_left : ∀ (n : Nat) (cs vs : List Int), dot (cs.take n) vs = dot cs (vs.take n)
  | 0, cs, vs => by simp
  | _ + 1, [], vs => by simp
  | _ + 1, _ :: _, [] => by simp
  | n + 1, c :: cs, v :: vs => by simp [dot_take_left n cs vs]

theorem dot_take_of_length_le {cs : List Int} {n : Nat} (h : cs.length ≤ n) (vs : List Int) :
    dot cs (vs.take n) = dot cs vs := by
  rw [← dot_take_left, List.take_of_length_le h]

theorem dot_map_mul (f : Int) : ∀ cs vs : List Int, dot (cs.map (· * f)) vs = f * dot cs vs
  | [], vs => by simp
  | _ :: _, [] => by simp
  | c :: cs, v :: vs => by
    rw [List.map_cons, dot_cons_cons, dot_cons_cons, dot_map_mul f cs vs]
    ring

theorem dot_replicate_zero : ∀ (n : Nat) (vs : List Int), dot (List.replicate n 0) vs = 0
  | 0, vs => by simp
  | _ + 1, [] => by simp
  | n + 1, v :: vs => by simp [List.replicate_succ, dot_replicate_zero n vs]

theorem dot_append : ∀ (cs ds vs : List Int), dot (cs ++ ds) vs = dot cs vs + dot ds (vs.drop cs.length)
  | [], ds, vs => by simp
  | _ :: _, ds, [] => by simp
  | c :: cs, ds, v :: vs => by
    rw [List.cons_append, dot_cons_cons, dot_cons_cons, dot_append cs ds vs, List.length_cons,
      List.drop_succ_cons]
    ring

theorem map_range_getD {cs : List Int} {n : Nat} (h : cs.length ≤ n) :
    (List.range n).map (cs.getD · 0) = cs ++ List.replicate (n - cs.length) 0 := by
  refine List.ext_getElem (by simp; omega) fun i hi _ => ?_
  rw [List.getElem_map, List.getElem_range, List.getD_eq_getElem?_getD]
  rcases Nat.lt_or_ge i cs.length with hlt | hge
  · rw [List.getElem_append_left hlt, List.getElem?_eq_getElem hlt, Option.getD_some]
  · rw [List.getElem_append_right hge, List.getElem_replicate, List.getElem?_eq_none hge, Option.getD_none]

theorem dot_map_range_getD {cs : List Int} {n : Nat} (h : cs.length ≤ n) (vs : List Int) :
    dot ((List.range n).map (cs.getD · 0)) vs = dot cs vs := by
  rw [map_range_getD h, dot_append, dot_replicate_zero, Int.add_zero]

end Dot

section Word

theorem addTerms_eq_ok : ∀ {acc : Int} {cs vs : List Int} {r : Int},
    addTerms acc cs vs = .ok r → r = acc + dot cs vs
  | acc, c :: cs, v :: vs, r, h => by
    obtain ⟨p, hp, h⟩ := bind_eq_ok.1 h
    obtain ⟨s, hs, h⟩ := bind_eq_ok.1 h
    rw [addTerms_eq_ok h, I64.add_eq_ok hs, I64.mul_eq_ok hp, dot_cons_cons]
    ring
  | acc, [], vs, r, h => by
    cases h
    simp
  | acc, _ :: _, [], r, h => by
    cases h
    simp

theorem addTerms_onlyOverflows : ∀ (acc : Int) (cs vs : List Int), OnlyOverflows (addTerms acc cs vs)
  | acc, c :: cs, v :: vs => by
    unfold addTerms
    exact .bind (.check _ _) fun p _ => .bind (.check _ _) fun s _ => addTerms_onlyOverflows s cs vs
  | _, [], _ => .ok _
  | _, _ :: _, [] => .ok _

theorem evaluate_eq_ok {e : AffineExpr} {dims syms : List Int} {r : Int} (h : e.evaluate dims syms = .ok r) :
    r = e.value dims syms := by
  obtain ⟨r₁, h₁, h₂⟩ := bind_eq_ok.1 h
  rw [addTerms_eq_ok h₂, addTerms_eq_ok h₁]
  rfl

theorem evaluate_onlyOverflows (e : AffineExpr) (dims syms : List Int) : OnlyOverflows (e.evaluate dims syms) :=
  .bind (addTerms_onlyOverflows _ _ _) fun r _ => addTerms_onlyOverflows r _ _

theorem evaluate_eq_value (e : AffineExpr) (dims syms : List Int) :
    e.evaluate dims syms = .ok (e.value dims syms) ∨ ∃ op, e.evaluate dims syms = .error (.overflow op) := by
  rcases (evaluate_onlyOverflows e dims syms).cases with ⟨r, hr⟩ | hover
  · rw [hr, evaluate_eq_ok hr]
    exact .inl rfl
  · exact .inr hover

theorem scale_eq_ok {e r : AffineExpr} {f : Int} (h : e.scale f = .ok r) :
    r = ⟨e.constant * f, e.coeffs.map (· * f), e.symCoeffs.map (· * f)⟩ := by
  obtain ⟨c, hc, h⟩ := bind_eq_ok.1 h
  obtain ⟨cs, hcs, h⟩ := bind_eq_ok.1 h
  obtain ⟨ss, hss, h⟩ := bind_eq_ok.1 h
  rw [pure_eq_ok] at h
  rw [← h, I64.mul_eq_ok hc, mapM_ok_eq_map (fun _ _ => I64.mul_eq_ok) hcs,
    mapM_ok_eq_map (fun _ _ => I64.mul_eq_ok) hss]

theorem scale_onlyOverflows (e : AffineExpr) (f : Int) : OnlyOverflows (e.scale f) :=
  .bind (.check _ _) fun _ _ => .bind (.mapM fun _ _ => .check _ _) fun _ _ =>
    .bind (.mapM fun _ _ => .check _ _) fun _ _ => .ok _

theorem addInto_eq_ok : ∀ {xs ys zs : List Int}, addInto xs ys = .ok zs →
    zs.length = xs.length ∧ ∀ vs, dot zs vs = dot xs vs + dot ys (vs.take xs.length)
  | x :: xs, y :: ys, zs, h => by
    obtain ⟨z, hz, h⟩ := bind_eq_ok.1 h
    obtain ⟨zs', hzs, h⟩ := bind_eq_ok.1 h
    rw [pure_eq_ok] at h
    subst h
    obtain ⟨hlen, hdot⟩ := addInto_eq_ok hzs
    refine ⟨by simp [hlen], fun vs => ?_⟩
    cases vs with
    | nil => simp
    | cons v vs =>
      rw [dot_cons_cons, hdot, I64.add_eq_ok hz, List.length_cons, List.take_succ_cons, dot_cons_cons,
        dot_cons_cons]
      ring
  | [], ys, zs, h => by
    cases h
    simp
  | _ :: _, [], zs, h => by
    cases h
    simp

theorem addInto_onlyOverflows : ∀ xs ys : List Int, OnlyOverflows (addInto xs ys)
  | x :: xs, y :: ys => by
    unfold addInto
    exact .bind (.check _ _) fun _ _ => .bind (addInto_onlyOverflows xs ys) fun _ _ => .ok _
  | [], _ => .ok _
  | _ :: _, [] => .ok _

end Word

theorem value_scale {e r : AffineExpr} {f : Int} (h : e.scale f = .ok r) (dims syms : List Int) :
    r.value dims syms = f * e.value dims syms := by
  rw [scale_eq_ok h]
  simp only [value, dot_map_mul]
  ring

theorem scale_shape {e r : AffineExpr} {f : Int} (h : e.scale f = .ok r) : r.nDim = e.nDim ∧ r.nSym = e.nSym := by
  rw [scale_eq_ok h]
  simp [nDim, nSym]

theorem accumulate_eq_ok {e o r : AffineExpr} (h : e.accumulate o = .ok r) :
    r.nDim = e.nDim ∧ r.nSym = e.nSym ∧
      ∀ dims syms, r.value dims syms = e.value dims syms + o.value (dims.take e.nDim) (syms.take e.nSym) := by
  obtain ⟨c, hc, h⟩ := bind_eq_ok.1 h
  obtain ⟨cs, hcs, h⟩ := bind_eq_ok.1 h
  obtain ⟨ss, hss, h⟩ := bind_eq_ok.1 h
  rw [pure_eq_ok] at h
  subst h
  obtain ⟨hcl, hcd⟩ := addInto_eq_ok hcs
  obtain ⟨hsl, hsd⟩ := addInto_eq_ok hss
  refine ⟨hcl, hsl, fun dims syms => ?_⟩
  simp only [value, hcd, hsd, I64.add_eq_ok hc, nDim, nSym]
  ring

theorem accumulate_onlyOverflows (e o : AffineExpr) : OnlyOverflows (e.accumulate o) :=
  .bind (.check _ _) fun _ _ => .bind (addInto_onlyOverflows _ _) fun _ _ =>
    .bind (addInto_onlyOverflows _ _) fun _ _ => .ok _

theorem value_add {a b c : AffineExpr} (h : a.add b = .ok c) (dims syms : List Int) :
    c.value dims syms = a.value dims syms + b.value dims (syms.take a.nSym) := by
  unfold add at h
  split at h
  · rename_i hlen
    rw [(accumulate_eq_ok h).2.2, nDim, hlen]
    simp only [value, dot_take_of_length_le (le_refl b.coeffs.length)]
  · cases h

theorem value_sub {a b c : AffineExpr} (h : a.sub b = .ok c) (dims syms : List Int) :
    c.value dims syms = a.value dims syms - b.value dims (syms.take a.nSym) := by
  obtain ⟨nb, hnb, h⟩ := bind_eq_ok.1 h
  rw [value_add h, value_scale hnb]
  ring

theorem value_neg {a c : AffineExpr} (h : a.neg = .ok c) (dims syms : List Int) :
    c.value dims syms = -a.value dims syms := by
  rw [value_scale h]
  ring

/-- A computation of an expression that, unless it overflows, returns one whose value at every
point is `F` of it. -/
def Yields (r : Except Fault AffineExpr) (F : List Int → List Int → Int) : Prop :=
  (∃ c, r = .ok c ∧ ∀ dims syms, c.value dims syms = F dims syms) ∨ ∃ op, r = .error (.overflow op)

theorem Yields.of_onlyOverflows {r : Except Fault AffineExpr} {F : List Int → List Int → Int}
    (hr : OnlyOverflows r) (hF : ∀ c, r = .ok c → ∀ dims syms, c.value dims syms = F dims syms) : Yields r F := by
  rcases hr.cases with ⟨c, hc⟩ | hover
  · exact .inl ⟨c, hc, hF c hc⟩
  · exact .inr hover

/-- Expression arithmetic in exact integers. Evaluation computes the exact value; negation and
scaling by `f` negate and scale it; the sum and the difference of expressions over the same
dimensions add and subtract the values of their operands, the second operand read with the symbol
values past the first's symbols left out. Each operation returns unless a coefficient overflows. -/
theorem arith_value (a b : AffineExpr) (hlen : a.coeffs.length = b.coeffs.length) (f : Int) :
    (∀ dims syms, a.evaluate dims syms = .ok (a.value dims syms) ∨
      ∃ op, a.evaluate dims syms = .error (.overflow op)) ∧
    Yields (a.add b) (fun dims syms => a.value dims syms + b.value dims (syms.take a.nSym)) ∧
    Yields (a.sub b) (fun dims syms => a.value dims syms - b.value dims (syms.take a.nSym)) ∧
    Yields a.neg (fun dims syms => -a.value dims syms) ∧
    Yields (a.scale f) (fun dims syms => f * a.value dims syms) := by
  have hadd : OnlyOverflows (a.add b) := by
    unfold add
    rw [if_pos hlen]
    exact accumulate_onlyOverflows a b
  refine ⟨evaluate_eq_value a, .of_onlyOverflows hadd fun c hc => value_add hc,
    .of_onlyOverflows ?_ fun c hc => value_sub hc, .of_onlyOverflows (scale_onlyOverflows a (-1))
      fun c hc => value_neg hc, .of_onlyOverflows (scale_onlyOverflows a f) fun c hc => value_scale hc⟩
  -- the negated operand keeps its dimensions, so the sum after it passes its length check
  refine .bind (scale_onlyOverflows b (-1)) fun nb hnb => ?_
  have hlen' : a.coeffs.length = nb.coeffs.length := hlen.trans (scale_shape hnb).1.symm
  unfold add
  rw [if_pos hlen']
  exact accumulate_onlyOverflows a nb

theorem arith_value_two_dims :
    (([2, 3] : List Int).length = ([0, 1] : List Int).length) ∧
      Yields ((⟨1, [2, 3], [4]⟩ : AffineExpr).add ⟨5, [0, 1], [6]⟩)
        (fun dims syms => (⟨1, [2, 3], [4]⟩ : AffineExpr).value dims syms +
          (⟨5, [0, 1], [6]⟩ : AffineExpr).value dims (syms.take 1)) :=
  ⟨rfl, (arith_value ⟨1, [2, 3], [4]⟩ ⟨5, [0, 1], [6]⟩ rfl 7).2.1⟩

/-- With one more symbol in the second operand, `a + b` and `b + a` evaluate differently: the sum
drops the symbol term of `b`. -/
theorem add_drops_extra_symbols :
    (⟨0, [], []⟩ : AffineExpr).add ⟨0, [], [1]⟩ = .ok ⟨0, [], []⟩ ∧
      (⟨0, [], [1]⟩ : AffineExpr).add ⟨0, [], []⟩ = .ok ⟨0, [], [1]⟩ ∧
      (⟨0, [], []⟩ : AffineExpr).evaluate [] [5] = .ok 0 ∧
      (⟨0, [], [1]⟩ : AffineExpr).evaluate [] [5] = .ok 5 := by
  decide

end AffineExpr

end TileSched
