import Mathlib
import TileSched.Tree.Codec
/-! Compact text names its value. Values built from integers, arrays and objects whose member
names are letters and underscores are told apart by their compact text: the text of such a value,
followed by nothing or by a comma or a closing bracket, is followed so in one way only. Structural
keys are written with such values, so two keys of one compact text are one key. -/

namespace TileSched

namespace Json

def NameChar (c : Char) : Prop := c.isAlpha = true ∨ c = '_'

inductive Plain : Json → Prop
  | int (v : Int) : Plain (.int v)
  | arr {xs : List Json} (h : ∀ x ∈ xs, Plain x) : Plain (.arr xs)
  | obj {ms : List (String × Json)} (hn : ∀ m ∈ ms, ∀ c ∈ m.1.toList, NameChar c) (h : ∀ m ∈ ms, Plain m.2) :
      Plain (.obj ms)

/-- What may follow the text of a value inside a larger text: nothing, a comma or a closing
bracket. -/
def Stop (r : List Char) : Prop := ∀ c ∈ r.head?, c = ',' ∨ c = ']' ∨ c = '}'

theorem stop_nil : Stop [] := fun _ h => nomatch h

theorem stop_cons {c : Char} (r : List Char) (h : c = ',' ∨ c = ']' ∨ c = '}') : Stop (c :: r) :=
  fun _ hc => Option.mem_some_iff.1 hc ▸ h

theorem Stop.not_digit {c : Char} {r : List Char} (h : Stop (c :: r)) : c.isDigit = false := by
  rcases h c rfl with rfl | rfl | rfl <;> rfl

theorem Stop.ne_quote {c : Char} {r : List Char} (h : Stop (c :: r)) : c ≠ '"' := by
  rcases h c rfl with rfl | rfl | rfl <;> decide

/-! Texts of the parts. -/

theorem NameChar.escape {c : Char} (h : NameChar c) : escapeChar c = c.toString := by
  -- letters and the underscore lie above the control characters and are neither quote nor backslash
  have hc : 65 ≤ c.toNat ∧ c.toNat ≠ 92 := by
    rcases h with h | rfl
    · simp only [Char.isAlpha, Char.isUpper, Char.isLower, Bool.or_eq_true, Bool.and_eq_true, decide_eq_true_eq,
        ge_iff_le, UInt32.le_iff_toNat_le] at h
      have : ('A'.val.toNat, 'Z'.val.toNat, 'a'.val.toNat, 'z'.val.toNat) = (65, 90, 97, 122) := rfl
      simp only [Prod.mk.injEq] at this
      simp only [Char.toNat]
      omega
    · decide
  have hne : ∀ d : Char, d.toNat < 65 ∨ d.toNat = 92 → c ≠ d := fun d hd he => by
    subst he
    omega
  rw [escapeChar, if_neg (hne '"' (by decide)), if_neg (hne '\\' (by decide)), if_neg (hne '\n' (by decide)),
    if_neg (hne '\r' (by decide)), if_neg (hne '\t' (by decide)), if_neg (by omega), if_neg (by omega),
    if_neg (by omega)]

theorem quote_toList {k : String} (h : ∀ c ∈ k.toList, NameChar c) :
    (quote k).toList = '"' :: k.toList ++ ['"'] := by
  have hesc : k.toList.flatMap (fun c => (escapeChar c).toList) = k.toList := by
    have hc : ∀ c ∈ k.toList, (escapeChar c).toList = [c] := fun c hc => by
      rw [(h c hc).escape]
      simp
    rw [List.flatMap_congr hc, List.flatMap_singleton']
  simp [quote, String.toList_join, List.flatMap_map, hesc]

theorem int_toList_ofNat (m : Nat) : (compact (.int (Int.ofNat m))).toList = Nat.toDigits 10 m := by
  simp [compact, Int.toString_eq_repr, Int.repr, Nat.toList_repr]

theorem int_toList_negSucc (m : Nat) :
    (compact (.int (Int.negSucc m))).toList = '-' :: Nat.toDigits 10 (m + 1) := by
  simp [compact, Int.toString_eq_repr, Int.repr, Nat.toList_repr]

theorem arr_toList (xs : List Json) : (compact (.arr xs)).toList = '[' :: (compactItems xs).toList ++ [']'] := by
  simp [compact]

theorem obj_toList (ms : List (String × Json)) :
    (compact (.obj ms)).toList = '{' :: (compactMembers ms).toList ++ ['}'] := by
  simp [compact]

theorem compactItems_cons_toList (x : Json) (xs : List Json) :
    (compactItems (x :: xs)).toList =
      (compact x).toList ++ (match xs with | [] => [] | _ :: _ => ',' :: (compactItems xs).toList) := by
  cases xs <;> simp [compactItems]

theorem compactMembers_cons_toList {k : String} (hk : ∀ c ∈ k.toList, NameChar c) (v : Json)
    (ms : List (String × Json)) :
    (compactMembers ((k, v) :: ms)).toList = '"' :: k.toList ++ '"' :: ':' :: ((compact v).toList ++
      (match ms with | [] => [] | _ :: _ => ',' :: (compactMembers ms).toList)) := by
  cases ms <;> simp [compactMembers, quote_toList hk]

theorem int_head (v : Int) : ∃ c cs, (compact (.int v)).toList = c :: cs ∧ (c = '-' ∨ c.isDigit = true) := by
  cases v with
  | ofNat m =>
    obtain ⟨c, cs, hcs⟩ := List.exists_cons_of_ne_nil (Nat.toDigits_ne_nil (n := m) (b := 10))
    refine ⟨c, cs, by rw [int_toList_ofNat, hcs], .inr (Nat.isDigit_of_mem_toDigits (b := 10) (n := m) (by decide) (by decide) ?_)⟩
    rw [hcs]
    exact List.mem_cons_self
  | negSucc m => exact ⟨'-', _, int_toList_negSucc m, .inl rfl⟩

theorem Plain.head {j : Json} (h : Plain j) : ∃ c cs, (compact j).toList = c :: cs ∧ c ≠ ']' ∧ c ≠ '"' := by
  cases h with
  | int v =>
    obtain ⟨c, cs, hcs, hc⟩ := int_head v
    refine ⟨c, cs, hcs, ?_, ?_⟩ <;> rintro rfl <;> revert hc <;> decide
  | arr => exact ⟨'[', _, arr_toList _, by decide, by decide⟩
  | obj => exact ⟨'{', _, obj_toList _, by decide, by decide⟩

/-! Reading a text back. -/

theorem digits_append_inj {ds ds' r r' : List Char} (hd : ∀ c ∈ ds, c.isDigit = true)
    (hd' : ∀ c ∈ ds', c.isDigit = true) (hr : Stop r) (hr' : Stop r') (h : ds ++ r = ds' ++ r') :
    ds = ds' ∧ r = r' := by
  induction ds generalizing ds' with
  | nil =>
    cases ds' with
    | nil => exact ⟨rfl, h⟩
    | cons c ds' =>
      subst h
      exact absurd (hd' c List.mem_cons_self) (by rw [hr.not_digit]; decide)
  | cons c ds ih =>
    cases ds' with
    | nil =>
      subst h
      exact absurd (hd c List.mem_cons_self) (by rw [hr'.not_digit]; decide)
    | cons c' ds' =>
      rw [List.cons_append, List.cons_append, List.cons.injEq] at h
      obtain ⟨hds, hrest⟩ := ih (fun x hx => hd x (List.mem_cons_of_mem _ hx))
        (fun x hx => hd' x (List.mem_cons_of_mem _ hx)) h.2
      exact ⟨by rw [h.1, hds], hrest⟩

theorem toDigits_inj {m m' : Nat} (h : Nat.toDigits 10 m = Nat.toDigits 10 m') : m = m' := by
  rw [← Nat.ofDigitChars_ten_toDigits (n := m), h, Nat.ofDigitChars_ten_toDigits]

theorem int_append_inj {v v' : Int} {r r' : List Char} (hr : Stop r) (hr' : Stop r')
    (h : (compact (.int v)).toList ++ r = (compact (.int v')).toList ++ r') : v = v' ∧ r = r' := by
  have hdig : ∀ m, ∀ c ∈ Nat.toDigits 10 m, c.isDigit = true :=
    fun _ _ hc => Nat.isDigit_of_mem_toDigits (b := 10) (by decide) (by decide) hc
  cases v with
  | ofNat m =>
    cases v' with
    | ofNat m' =>
      rw [int_toList_ofNat, int_toList_ofNat] at h
      obtain ⟨hds, hrest⟩ := digits_append_inj (hdig m) (hdig m') hr hr' h
      exact ⟨by rw [toDigits_inj hds], hrest⟩
    | negSucc m' =>
      -- a digit against a minus sign
      obtain ⟨c, cs, hcs, hc⟩ := int_head (Int.ofNat m)
      rw [hcs, int_toList_negSucc, List.cons_append, List.cons_append, List.cons.injEq] at h
      rw [int_toList_ofNat] at hcs
      have := hdig m c (by rw [hcs]; exact List.mem_cons_self)
      rw [h.1] at this
      exact absurd this (by decide)
  | negSucc m =>
    cases v' with
    | ofNat m' =>
      obtain ⟨c, cs, hcs, hc⟩ := int_head (Int.ofNat m')
      rw [hcs, int_toList_negSucc, List.cons_append, List.cons_append, List.cons.injEq] at h
      rw [int_toList_ofNat] at hcs
      have := hdig m' c (by rw [hcs]; exact List.mem_cons_self)
      rw [← h.1] at this
      exact absurd this (by decide)
    | negSucc m' =>
      rw [int_toList_negSucc, int_toList_negSucc, List.cons_append, List.cons_append, List.cons.injEq] at h
      obtain ⟨hds, hrest⟩ := digits_append_inj (hdig _) (hdig _) hr hr' h.2
      exact ⟨by rw [Nat.succ.inj (toDigits_inj hds)], hrest⟩

theorem name_append_inj {k k' r r' : List Char} (hk : ∀ c ∈ k, NameChar c) (hk' : ∀ c ∈ k', NameChar c)
    (h : k ++ '"' :: r = k' ++ '"' :: r') : k = k' ∧ r = r' := by
  have hq : ∀ c, NameChar c → c ≠ '"' := fun c hc he => by
    subst he
    rcases hc with hc | hc <;> revert hc <;> decide
  induction k generalizing k' with
  | nil =>
    cases k' with
    | nil => exact ⟨rfl, (List.cons.inj h).2⟩
    | cons c k' => exact absurd (List.cons.inj h).1.symm (hq c (hk' c List.mem_cons_self))
  | cons c k ih =>
    cases k' with
    | nil => exact absurd (List.cons.inj h).1 (hq c (hk c List.mem_cons_self))
    | cons c' k' =>
      rw [List.cons_append, List.cons_append, List.cons.injEq] at h
      obtain ⟨hks, hrest⟩ := ih (fun x hx => hk x (List.mem_cons_of_mem _ hx))
        (fun x hx => hk' x (List.mem_cons_of_mem _ hx)) h.2
      exact ⟨by rw [h.1, hks], hrest⟩

def ReadsBack (x : Json) : Prop :=
  ∀ {y r r'}, Plain y → Stop r → Stop r' → (compact x).toList ++ r = (compact y).toList ++ r' → x = y ∧ r = r'

theorem stop_itemsTail (xs : List Json) (r : List Char) :
    Stop ((match xs with | [] => [] | _ :: _ => ',' :: (compactItems xs).toList) ++ ']' :: r) := by
  cases xs with
  | nil => exact stop_cons r (by simp)
  | cons => exact stop_cons _ (by simp)

theorem items_append_inj {xs : List Json} (hxs : ∀ x ∈ xs, Plain x ∧ ReadsBack x) :
    ∀ {ys : List Json} {r r' : List Char}, (∀ y ∈ ys, Plain y) →
      (compactItems xs).toList ++ ']' :: r = (compactItems ys).toList ++ ']' :: r' → xs = ys ∧ r = r' := by
  induction xs with
  | nil =>
    intro ys r r' hys h
    cases ys with
    | nil => exact ⟨rfl, (List.cons.inj h).2⟩
    | cons y ys =>
      obtain ⟨c, cs, hcs, hc, -⟩ := (hys y List.mem_cons_self).head
      rw [compactItems_cons_toList, hcs] at h
      exact absurd (List.cons.inj h).1.symm hc
  | cons x xs ih =>
    intro ys r r' hys h
    cases ys with
    | nil =>
      obtain ⟨c, cs, hcs, hc, -⟩ := (hxs x List.mem_cons_self).1.head
      rw [compactItems_cons_toList, hcs] at h
      exact absurd (List.cons.inj h).1 hc
    | cons y ys =>
      rw [compactItems_cons_toList, compactItems_cons_toList, List.append_assoc, List.append_assoc] at h
      -- the first item is read back, then the rest of the list
      obtain ⟨rfl, htail⟩ := (hxs x List.mem_cons_self).2 (hys y List.mem_cons_self) (stop_itemsTail xs r)
        (stop_itemsTail ys r') h
      cases xs <;> cases ys <;> simp at htail
      · exact ⟨rfl, htail⟩
      · obtain ⟨hxs', hr⟩ := ih (fun x hx => hxs x (List.mem_cons_of_mem _ hx))
          (fun y hy => hys y (List.mem_cons_of_mem _ hy)) (by simpa using htail)
        exact ⟨by rw [hxs'], hr⟩

theorem stop_membersTail (ms : List (String × Json)) (r : List Char) :
    Stop ((match ms with | [] => [] | _ :: _ => ',' :: (compactMembers ms).toList) ++ '}' :: r) := by
  cases ms with
  | nil => exact stop_cons r (by simp)
  | cons => exact stop_cons _ (by simp)

theorem members_append_inj {ms : List (String × Json)}
    (hms : ∀ m ∈ ms, (∀ c ∈ m.1.toList, NameChar c) ∧ Plain m.2 ∧ ReadsBack m.2) :
    ∀ {ns : List (String × Json)} {r r' : List Char}, (∀ n ∈ ns, (∀ c ∈ n.1.toList, NameChar c) ∧ Plain n.2) →
      (compactMembers ms).toList ++ '}' :: r = (compactMembers ns).toList ++ '}' :: r' → ms = ns ∧ r = r' := by
  induction ms with
  | nil =>
    intro ns r r' hns h
    cases ns with
    | nil => exact ⟨rfl, (List.cons.inj h).2⟩
    | cons n ns =>
      rw [compactMembers_cons_toList (hns n List.mem_cons_self).1] at h
      exact absurd (List.cons.inj h).1 (by decide)
  | cons m ms ih =>
    intro ns r r' hns h
    obtain ⟨k, v⟩ := m
    obtain ⟨hk, -, hv⟩ := hms (k, v) List.mem_cons_self
    cases ns with
    | nil =>
      rw [compactMembers_cons_toList hk] at h
      exact absurd (List.cons.inj h).1 (by decide)
    | cons n ns =>
      obtain ⟨k', v'⟩ := n
      obtain ⟨hk', hv'⟩ := hns (k', v') List.mem_cons_self
      rw [compactMembers_cons_toList hk, compactMembers_cons_toList hk'] at h
      simp only [List.cons_append, List.append_assoc, List.cons.injEq, true_and] at h
      -- the name, up to its closing quote, then the value
      obtain ⟨hkk, h⟩ := name_append_inj hk hk' h
      rw [List.cons.injEq] at h
      obtain ⟨rfl, htail⟩ := hv hv' (stop_membersTail ms r) (stop_membersTail ns r') h.2
      rw [String.toList_inj] at hkk
      subst hkk
      cases ms <;> cases ns <;> simp at htail
      · exact ⟨rfl, htail⟩
      · obtain ⟨hms', hr⟩ := ih (fun m hm => hms m (List.mem_cons_of_mem _ hm))
          (fun n hn => hns n (List.mem_cons_of_mem _ hn)) (by simpa using htail)
        exact ⟨by rw [hms'], hr⟩

theorem int_ne_open {v : Int} {c : Char} {cs r r' : List Char} (hc : c = '[' ∨ c = '{')
    (h : (compact (.int v)).toList ++ r = c :: cs ++ r') : False := by
  obtain ⟨d, ds, hds, hd⟩ := int_head v
  rw [hds, List.cons_append, List.cons_append, List.cons.injEq] at h
  rw [h.1] at hd
  rcases hc with rfl | rfl <;> revert hd <;> decide

theorem Plain.readsBack {j : Json} (h : Plain j) : ReadsBack j := by
  induction h with
  | int v =>
    intro y r r' hy hr hr' he
    cases hy with
    | int v' =>
      obtain ⟨rfl, hrr⟩ := int_append_inj hr hr' he
      exact ⟨rfl, hrr⟩
    | arr => exact (int_ne_open (.inl rfl) (by rwa [arr_toList] at he)).elim
    | obj => exact (int_ne_open (.inr rfl) (by rwa [obj_toList] at he)).elim
  | @arr xs hxs ih =>
    intro y r r' hy hr hr' he
    cases hy with
    | int v => exact (int_ne_open (.inl rfl) (by rw [arr_toList] at he; exact he.symm)).elim
    | @arr ys hys =>
      simp only [arr_toList, List.cons_append, List.append_assoc, List.cons.injEq,
        true_and] at he
      obtain ⟨rfl, hrr⟩ := items_append_inj (fun x hx => ⟨hxs x hx, ih x hx⟩) hys he
      exact ⟨rfl, hrr⟩
    | obj => simp [arr_toList, obj_toList] at he
  | @obj ms hmn hms ih =>
    intro y r r' hy hr hr' he
    cases hy with
    | int v => exact (int_ne_open (.inr rfl) (by rw [obj_toList] at he; exact he.symm)).elim
    | arr => simp [arr_toList, obj_toList] at he
    | @obj ns hnn hns =>
      simp only [obj_toList, List.cons_append, List.append_assoc, List.cons.injEq,
        true_and] at he
      obtain ⟨rfl, hrr⟩ := members_append_inj (fun m hm => ⟨hmn m hm, hms m hm, ih m hm⟩)
        (fun n hn => ⟨hnn n hn, hns n hn⟩) he
      exact ⟨rfl, hrr⟩

theorem Plain.compact_inj {j j' : Json} (h : Plain j) (h' : Plain j') (he : compact j = compact j') : j = j' :=
  (h.readsBack h' stop_nil stop_nil (by rw [he])).1

theorem plain_ofInts (xs : List Int) : (ofInts xs).Plain :=
  .arr fun x hx => by
    obtain ⟨v, -, rfl⟩ := List.mem_map.1 hx
    exact .int v

theorem ofInts_inj {xs ys : List Int} (h : ofInts xs = ofInts ys) : xs = ys :=
  (List.map_injective_iff.2 fun _ _ h => Json.int.inj h) (Json.arr.inj h)

end Json

open Json

/-! Keys in JSON. -/

theorem AffineExpr.plain_toJson (e : AffineExpr) : e.toJson.Plain := by
  refine .obj (by simp [NameChar]) ?_
  simp only [List.forall_mem_cons, List.not_mem_nil, IsEmpty.forall_iff, implies_true, and_true]
  exact ⟨.int _, plain_ofInts _, plain_ofInts _⟩

theorem AffineExpr.toJson_inj {e e' : AffineExpr} (h : e.toJson = e'.toJson) : e = e' := by
  obtain ⟨c, cs, ss⟩ := e
  obtain ⟨c', cs', ss'⟩ := e'
  simp only [toJson, Json.obj.injEq, List.cons.injEq, Prod.mk.injEq, Json.int.injEq, true_and, and_true] at h
  obtain ⟨rfl, hcs, hss⟩ := h
  rw [ofInts_inj hcs, ofInts_inj hss]

theorem AffineRange.plain_toJson (r : AffineRange) : r.toJson.Plain := by
  refine .obj (by simp [NameChar]) ?_
  simp only [List.forall_mem_cons, List.not_mem_nil, IsEmpty.forall_iff, implies_true, and_true]
  exact ⟨r.offset.plain_toJson, r.extent.plain_toJson⟩

theorem AffineRange.toJson_inj {r r' : AffineRange} (h : r.toJson = r'.toJson) : r = r' := by
  obtain ⟨o, x⟩ := r
  obtain ⟨o', x'⟩ := r'
  simp only [toJson, Json.obj.injEq, List.cons.injEq, Prod.mk.injEq, true_and, and_true] at h
  rw [AffineExpr.toJson_inj h.1, AffineExpr.toJson_inj h.2]

theorem AffineMap.plain_toJson (m : AffineMap) : m.toJson.Plain := by
  refine .obj (by simp [NameChar]) ?_
  simp only [List.forall_mem_cons, List.not_mem_nil, IsEmpty.forall_iff, implies_true, and_true]
  refine ⟨.int _, .int _, .arr fun x hx => ?_⟩
  obtain ⟨r, -, rfl⟩ := List.mem_map.1 hx
  exact r.plain_toJson

theorem AffineMap.toJson_inj {m m' : AffineMap} (h : m.toJson = m'.toJson) : m = m' := by
  obtain ⟨d, s, rs⟩ := m
  obtain ⟨d', s', rs'⟩ := m'
  simp only [toJson, Json.obj.injEq, List.cons.injEq, Prod.mk.injEq, Json.int.injEq, Json.arr.injEq,
    Int.natCast_inj, true_and, and_true] at h
  obtain ⟨rfl, rfl, hrs⟩ := h
  rw [(List.map_injective_iff.2 fun _ _ h => AffineRange.toJson_inj h) hrs]

namespace StructuralKey

@[induction_eliminator]
theorem rec' {P : StructuralKey → Prop} (scope : ∀ cs, (∀ c ∈ cs, P c) → P (.scope cs))
    (tile : ∀ l o r b cs, (∀ c ∈ cs, P c) → P (.tile l o r b cs)) (leaf : ∀ o r, P (.leaf o r)) : ∀ k, P k :=
  go
where
  go : ∀ k, P k
    | .scope cs => scope cs (goAll cs)
    | .tile l o r b cs => tile l o r b cs (goAll cs)
    | .leaf o r => leaf o r
  goAll : ∀ cs : List StructuralKey, ∀ c ∈ cs, P c
    | [], _, hc => absurd hc List.not_mem_nil
    | c :: cs, c', hc' => (List.mem_cons.1 hc').elim (fun e => e ▸ go c) (goAll cs c')

@[simp] theorem toJsonAll_eq_map (cs : List StructuralKey) : toJsonAll cs = cs.map toJson := by
  induction cs with
  | nil => rfl
  | cons c cs ih => rw [toJsonAll, ih, List.map_cons]

theorem plain_toJson (k : StructuralKey) : k.toJson.Plain := by
  induction k with
  | scope cs ih =>
    have hcs : (Json.arr (cs.map toJson)).Plain := .arr fun x hx => by
      obtain ⟨c, hc, rfl⟩ := List.mem_map.1 hx
      exact ih c hc
    rw [toJson]
    exact .obj (by simp [NameChar]) (by simpa using hcs)
  | tile l o r b cs ih =>
    have hnode : (Json.obj [("level", .int l), ("op", .int o), ("relation", r.toJson), ("bounds", ofInts b),
        ("children", .arr (cs.map toJson))]).Plain := by
      refine .obj (by simp [NameChar]) ?_
      simp only [List.forall_mem_cons, List.not_mem_nil, IsEmpty.forall_iff, implies_true, and_true]
      refine ⟨.int _, .int _, r.plain_toJson, plain_ofInts b, .arr fun x hx => ?_⟩
      obtain ⟨c, hc, rfl⟩ := List.mem_map.1 hx
      exact ih c hc
    rw [toJson]
    exact .obj (by simp [NameChar]) (by simpa using hnode)
  | leaf o r =>
    have hnode : (Json.obj [("op", .int o), ("relation", r.toJson)]).Plain := by
      refine .obj (by simp [NameChar]) ?_
      simp only [List.forall_mem_cons, List.not_mem_nil, IsEmpty.forall_iff, implies_true, and_true]
      exact ⟨.int _, r.plain_toJson⟩
    rw [toJson]
    exact .obj (by simp [NameChar]) (by simpa using hnode)

theorem eq_of_map_toJson_eq {cs : List StructuralKey} (ih : ∀ c ∈ cs, ∀ d, c.toJson = d.toJson → c = d) :
    ∀ {ds : List StructuralKey}, cs.map toJson = ds.map toJson → cs = ds := by
  induction cs with
  | nil => exact fun h => (List.map_eq_nil_iff.1 h.symm).symm
  | cons c cs ihs =>
    intro ds h
    cases ds with
    | nil => simp at h
    | cons d ds => ?_
    rw [List.map_cons, List.map_cons, List.cons.injEq] at h
    rw [ih c List.mem_cons_self d h.1, ihs (fun c hc => ih c (List.mem_cons_of_mem _ hc)) h.2]

theorem toJson_inj {k k' : StructuralKey} (h : k.toJson = k'.toJson) : k = k' := by
  induction k generalizing k' with
  | scope cs ih =>
    cases k' with
    | scope ds =>
      simp only [toJson, toJsonAll_eq_map, Json.obj.injEq, List.cons.injEq, Prod.mk.injEq, Json.arr.injEq,
        true_and, and_true] at h
      rw [eq_of_map_toJson_eq (fun c hc d => ih c hc) h]
    | _ => simp [toJson] at h
  | tile l o r b cs ih =>
    cases k' with
    | tile l' o' r' b' ds =>
      simp only [toJson, toJsonAll_eq_map, Json.obj.injEq, List.cons.injEq, Prod.mk.injEq, Json.int.injEq,
        Json.arr.injEq, Int.natCast_inj, true_and, and_true] at h
      obtain ⟨rfl, rfl, hr, hb, hcs⟩ := h
      rw [AffineMap.toJson_inj hr, ofInts_inj hb, eq_of_map_toJson_eq (fun c hc d => ih c hc) hcs]
    | _ => simp [toJson] at h
  | leaf o r =>
    cases k' with
    | leaf o' r' =>
      simp only [toJson, Json.obj.injEq, List.cons.injEq, Prod.mk.injEq, Json.int.injEq, Int.natCast_inj,
        true_and, and_true] at h
      rw [h.1, AffineMap.toJson_inj h.2]
    | _ => simp [toJson] at h

theorem compact_toJson_inj {k k' : StructuralKey} (h : k.toJson.compact = k'.toJson.compact) : k = k' :=
  toJson_inj (k.plain_toJson.compact_inj k'.plain_toJson h)

end StructuralKey

end TileSched
