import Mathlib.Tactic

/-! # Escapes in strings

  A character that a string may not have is written as `%` and two others. The
  escapes of several characters are undone one after the other; what keeps them
  apart is which codes a string has already.
-/

namespace Escape

open List

/-- What holds of all characters of a string is found out by looking at them,
    not at all characters there are. -/
instance decidableBall {p : Char → Prop} [DecidablePred p] (s : List Char) : Decidable (∀ c ∈ s, p c) :=
  List.decidableBAll p s

/-! ## Section 1: Replacing characters -/

/-- Write a character as an escape. -/
def escape (c hi lo : Char) (s : List Char) : List Char :=
  s.flatMap fun x => if x = c then ['%', hi, lo] else [x]

/-- Write the escapes with a code as a character. -/
def unescape (code : Char → Char → Bool) (c : Char) : List Char → List Char
  | '%' :: a :: b :: s =>
    if code a b then c :: unescape code c s else '%' :: unescape code c (a :: b :: s)
  | x :: s => x :: unescape code c s
  | [] => []

/-- Write two of a character as another one. -/
def pair (c d : Char) : List Char → List Char
  | a :: b :: s => if a = c ∧ b = c then d :: pair c d s else a :: pair c d (b :: s)
  | s => s

/-- Write a character as two of another one. -/
def unpair (c d : Char) (s : List Char) : List Char := s.flatMap fun x => if x = d then [c, c] else [x]

/-- Write a character as another one. -/
def replace (c d : Char) (s : List Char) : List Char := s.map fun x => if x = c then d else x

section

variable {c d hi lo x : Char} {s : List Char} {code : Char → Char → Bool}

theorem unescape_of_ne (hx : x ≠ '%') (s : List Char) : unescape code c (x :: s) = x :: unescape code c s := by
  rw [unescape]
  rintro a b s' ⟨⟩
  exact absurd rfl hx

theorem unescape_code (a b : Char) (s : List Char) : unescape code c ('%' :: a :: b :: s) =
    if code a b then c :: unescape code c s else '%' :: unescape code c (a :: b :: s) := by
  rw [unescape]

theorem escape_cons (s : List Char) :
    escape c hi lo (x :: s) = (if x = c then ['%', hi, lo] else [x]) ++ escape c hi lo s :=
  flatMap_cons

theorem escape_cons_self (s : List Char) : escape c hi lo (c :: s) = '%' :: hi :: lo :: escape c hi lo s := by
  rw [escape_cons, if_pos rfl]
  rfl

theorem escape_cons_of_ne (hx : x ≠ c) (s : List Char) : escape c hi lo (x :: s) = x :: escape c hi lo s := by
  rw [escape_cons, if_neg hx]
  rfl

theorem mem_escape (h : x ∈ escape c hi lo s) : (x ∈ s ∧ x ≠ c) ∨ x = '%' ∨ x = hi ∨ x = lo := by
  obtain ⟨y, hy, hx⟩ := mem_flatMap.mp h
  split at hx
  · simp only [mem_cons, not_mem_nil, or_false] at hx
    exact Or.inr hx
  · rename_i hne
    rw [mem_singleton] at hx
    subst hx
    exact Or.inl ⟨hy, hne⟩

/-- What is escaped does not occur any more. -/
theorem not_mem_escape (hx : x ∉ s ∨ x = c) (hnew : x ≠ '%' ∧ x ≠ hi ∧ x ≠ lo) : x ∉ escape c hi lo s := by
  intro h
  rcases mem_escape h with ⟨hs, hc⟩ | h
  · rcases hx with hx | hx
    · exact hx hs
    · exact hc hx
  · rcases h with h | h | h
    · exact hnew.1 h
    · exact hnew.2.1 h
    · exact hnew.2.2 h

theorem escape_eq_nil : escape c hi lo s = [] ↔ s = [] := by
  cases s with
  | nil => simp [escape]
  | cons x s =>
    rw [escape_cons]
    split <;> simp

theorem mem_pair (h : x ∈ pair c d s) : x ∈ s ∨ x = d := by
  fun_induction pair c d s with
  | case1 a b s hab ih =>
    rcases mem_cons.mp h with h | h
    · exact Or.inr h
    · exact (ih h).imp_left fun h => mem_cons_of_mem _ (mem_cons_of_mem _ h)
  | case2 a b s hab ih =>
    rcases mem_cons.mp h with rfl | h
    · exact Or.inl mem_cons_self
    · exact (ih h).imp_left (mem_cons_of_mem _)
  | case3 => exact Or.inl h

theorem pair_eq_nil : pair c d s = [] ↔ s = [] := by
  fun_cases pair c d s <;> simp_all

/-- The other character is there exactly if there were two of the first. -/
theorem mem_pair_iff (hd : d ∉ s) : d ∈ pair c d s ↔ [c, c] <:+: s := by
  fun_induction pair c d s with
  | case1 a b s hab ih =>
    obtain ⟨rfl, rfl⟩ := hab
    simp only [mem_cons_self, true_iff]
    exact ⟨[], s, rfl⟩
  | case2 a b s hab ih =>
    have hda : d ≠ a := fun h => hd (h ▸ mem_cons_self)
    rw [mem_cons, or_iff_right hda, ih fun h => hd (mem_cons_of_mem _ h),
      @infix_cons_iff _ _ _ (b :: s), or_iff_right]
    rintro ⟨t, ht⟩
    simp only [cons_append, nil_append, List.cons.injEq] at ht
    exact hab ⟨ht.1.symm, ht.2.1.symm⟩
  | case3 s hs =>
    refine ⟨fun h => absurd h hd, ?_⟩
    rintro ⟨p, t, rfl⟩
    exfalso
    cases p with
    | nil => exact hs c c t rfl
    | cons y p =>
      cases p with
      | nil => exact hs y c (c :: t) rfl
      | cons z p => exact hs y z (p ++ [c, c] ++ t) (by simp)

theorem mem_pair_of_mem (hx : x ≠ c) (h : x ∈ s) : x ∈ pair c d s := by
  fun_induction pair c d s with
  | case1 a b s hab ih =>
    obtain ⟨ha, hb⟩ := hab
    rcases mem_cons.mp h with h | h
    · exact absurd (h.trans ha) hx
    · rcases mem_cons.mp h with h | h
      · exact absurd (h.trans hb) hx
      · exact mem_cons_of_mem _ (ih h)
  | case2 a b s hab ih =>
    rcases mem_cons.mp h with rfl | h
    · exact mem_cons_self
    · exact mem_cons_of_mem _ (ih h)
  | case3 => exact h

theorem mem_pair_iff_of_ne (hc : x ≠ c) (hd : x ≠ d) : x ∈ pair c d s ↔ x ∈ s :=
  ⟨fun h => (mem_pair h).resolve_right hd, mem_pair_of_mem hc⟩

/-- A character that is not escaped, and that escapes are not made of, stays. -/
theorem mem_escape_iff_of_ne (hx : x ≠ c) (hnew : x ≠ '%' ∧ x ≠ hi ∧ x ≠ lo) : x ∈ escape c hi lo s ↔ x ∈ s := by
  constructor
  · intro h
    rcases mem_escape h with ⟨h, -⟩ | h | h | h
    · exact h
    · exact absurd h hnew.1
    · exact absurd h hnew.2.1
    · exact absurd h hnew.2.2
  · intro h
    refine mem_flatMap.mpr ⟨x, h, ?_⟩
    rw [if_neg hx]
    exact mem_singleton_self x

theorem infix_pair_cons : [c, c] <:+: x :: s ↔ (x = c ∧ s.head? = some c) ∨ [c, c] <:+: s := by
  rw [infix_cons_iff]
  refine or_congr_left ?_
  constructor
  · rintro ⟨t, ht⟩
    simp only [cons_append, nil_append, List.cons.injEq] at ht
    rw [← ht.2]
    exact ⟨ht.1.symm, rfl⟩
  · rintro ⟨rfl, hs⟩
    obtain ⟨t, rfl⟩ := List.head?_eq_some_iff.mp hs
    exact ⟨t, rfl⟩

/-- Two of a character are not torn apart by the escape of another one. -/
theorem infix_escape_iff (hd : d ≠ c) (hnew : d ≠ '%' ∧ d ≠ hi ∧ d ≠ lo) :
    [d, d] <:+: escape c hi lo s ↔ [d, d] <:+: s := by
  have hhead : ∀ s, (escape c hi lo s).head? = some d ↔ s.head? = some d := by
    intro s
    cases s with
    | nil => rfl
    | cons x s =>
      by_cases hx : x = c
      · subst hx
        rw [escape_cons_self]
        simp [hd.symm, hnew.1.symm]
      · rw [escape_cons_of_ne hx]
        rfl
  induction s with
  | nil => exact Iff.rfl
  | cons x s ih =>
    by_cases hx : x = c
    · subst hx
      rw [escape_cons_self, infix_pair_cons, infix_pair_cons, infix_pair_cons, infix_pair_cons]
      simp [hd.symm, hnew.1.symm, hnew.2.1.symm, hnew.2.2.symm, ih]
    · rw [escape_cons_of_ne hx, infix_pair_cons, infix_pair_cons, hhead]
      exact or_congr_right ih

theorem infix_replace_iff {x : Char} (hc : x ≠ c) (hd : x ≠ d) : [x, x] <:+: replace c d s ↔ [x, x] <:+: s := by
  have hkeep : ∀ y, (if y = c then d else y) = x ↔ y = x := by
    intro y
    split
    · rename_i hy
      rw [hy]
      exact ⟨fun h => absurd h.symm hd, fun h => absurd h.symm hc⟩
    · rfl
  have hhead : ∀ s, (replace c d s).head? = some x ↔ s.head? = some x := by
    intro s
    cases s with
    | nil => rfl
    | cons z s => simp [replace, hkeep]
  induction s with
  | nil => exact Iff.rfl
  | cons y s ih =>
    show [x, x] <:+: (if y = c then d else y) :: replace c d s ↔ _
    rw [infix_pair_cons, infix_pair_cons, hkeep, hhead]
    exact or_congr_right ih

/-- Two of a character are read back where the other one does not occur. -/
theorem unpair_pair (hd : d ∉ s) : unpair c d (pair c d s) = s := by
  fun_induction pair c d s with
  | case1 a b s hab ih =>
    obtain ⟨rfl, rfl⟩ := hab
    have hs : d ∉ s := fun h => hd (mem_cons_of_mem _ (mem_cons_of_mem _ h))
    show (if d = d then [b, b] else [d]) ++ unpair b d (pair b d s) = _
    rw [ih hs, if_pos rfl]
    rfl
  | case2 a b s hab ih =>
    have ha : a ≠ d := fun h => hd (h ▸ mem_cons_self)
    show (if a = d then [c, c] else [a]) ++ unpair c d (pair c d (b :: s)) = _
    rw [ih fun h => hd (mem_cons_of_mem _ h), if_neg ha]
    rfl
  | case3 s hs =>
    have hall : ∀ x ∈ s, (if x = d then [c, c] else [x]) = [x] := by
      intro x hx
      have hxd : x ≠ d := fun h => hd (h ▸ hx)
      rw [if_neg hxd]
    unfold unpair
    rw [flatMap_congr hall, flatMap_singleton']

theorem mem_unpair (h : x ∈ unpair c d s) : x ∈ s ∨ x = c := by
  obtain ⟨y, hy, hx⟩ := mem_flatMap.mp h
  split at hx
  · simp only [mem_cons, not_mem_nil, or_false, or_self] at hx
    exact Or.inr hx
  · rw [mem_singleton] at hx
    subst hx
    exact Or.inl hy

theorem unpair_eq_nil : unpair c d s = [] ↔ s = [] := by
  cases s with
  | nil => simp [unpair]
  | cons x s =>
    unfold unpair
    rw [flatMap_cons]
    split <;> simp

theorem mem_unescape (h : x ∈ unescape code c s) : x ∈ s ∨ x = c := by
  fun_induction unescape code c s with
  | case1 a b s hab ih =>
    rcases mem_cons.mp h with h | h
    · exact Or.inr h
    · exact (ih h).imp_left fun h => by simp [h]
  | case2 a b s hab ih =>
    rcases mem_cons.mp h with rfl | h
    · exact Or.inl mem_cons_self
    · exact (ih h).imp_left (mem_cons_of_mem _)
  | case3 y s hs ih =>
    rcases mem_cons.mp h with rfl | h
    · exact Or.inl mem_cons_self
    · exact (ih h).imp_left (mem_cons_of_mem _)
  | case4 => exact Or.inl h

theorem unescape_eq_nil : unescape code c s = [] ↔ s = [] := by
  fun_cases unescape code c s <;> simp_all

theorem replace_replace (hd : d ∉ s) : replace d c (replace c d s) = s := by
  unfold replace
  rw [map_map]
  refine (map_congr_left fun x hx => ?_).trans (map_id s)
  have hxd : x ≠ d := fun h => hd (h ▸ hx)
  by_cases hxc : x = c
  · simp [hxc]
  · simp [hxc, hxd]

theorem replace_of_not_mem (hc : c ∉ s) : replace c d s = s := by
  refine (map_congr_left fun x hx => ?_).trans (map_id s)
  have hxc : x ≠ c := fun h => hc (h ▸ hx)
  rw [if_neg hxc]
  rfl

theorem mem_replace (h : x ∈ replace c d s) : (x ∈ s ∧ x ≠ c) ∨ x = d := by
  obtain ⟨y, hy, rfl⟩ := mem_map.mp h
  split
  · exact Or.inr rfl
  · rename_i hne
    exact Or.inl ⟨hy, hne⟩

end

/-! ## Section 2: Which codes a string has -/

/-- A `%` comes with a code of a list, and nothing else. -/
inductive Coded (S : List (Char × Char)) : List Char → Prop
  | nil : Coded S []
  | char {x : Char} {s : List Char} : x ≠ '%' → Coded S s → Coded S (x :: s)
  | code {a b : Char} {s : List Char} : (a, b) ∈ S → Coded S s → Coded S ('%' :: a :: b :: s)

/-- A character that codes are free of. -/
def Free (S : List (Char × Char)) (c : Char) : Prop := c ≠ '%' ∧ ∀ p ∈ S, p.1 ≠ c ∧ p.2 ≠ c

/-- No code has a `%` of its own. -/
def Plain (S : List (Char × Char)) : Prop := ∀ p ∈ S, p.1 ≠ '%' ∧ p.2 ≠ '%'

instance (S : List (Char × Char)) (c : Char) : Decidable (Free S c) :=
  inferInstanceAs (Decidable (c ≠ '%' ∧ ∀ p ∈ S, p.1 ≠ c ∧ p.2 ≠ c))

instance (S : List (Char × Char)) : Decidable (Plain S) :=
  inferInstanceAs (Decidable (∀ p ∈ S, p.1 ≠ '%' ∧ p.2 ≠ '%'))

section

variable {S : List (Char × Char)} {c d hi lo : Char} {s : List Char} {code : Char → Char → Bool}

theorem Coded.append {s' : List Char} (h : Coded S s) (h' : Coded S s') : Coded S (s ++ s') := by
  induction h with
  | nil => exact h'
  | char hx _ ih => exact .char hx ih
  | code hab _ ih => exact .code hab ih

theorem coded_of_not_mem (h : '%' ∉ s) : Coded S s := by
  induction s with
  | nil => exact .nil
  | cons x s ih =>
    rw [mem_cons, not_or] at h
    exact .char (Ne.symm h.1) (ih h.2)

/-- The first code of a string. -/
theorem Coded.split (h : Coded S s) : '%' ∉ s ∨
    ∃ p a b s', s = p ++ '%' :: a :: b :: s' ∧ '%' ∉ p ∧ (a, b) ∈ S ∧ Coded S s' := by
  induction h with
  | nil => exact Or.inl not_mem_nil
  | @char x s hx _ ih =>
    rcases ih with hs | ⟨p, a, b, s', rfl, hp, hab, hs'⟩
    · exact Or.inl (not_mem_cons_of_ne_of_not_mem (Ne.symm hx) hs)
    · exact Or.inr ⟨x :: p, a, b, s', rfl, not_mem_cons_of_ne_of_not_mem (Ne.symm hx) hp, hab, hs'⟩
  | code hab hs _ => exact Or.inr ⟨[], _, _, _, rfl, not_mem_nil, hab, hs⟩

/-- A code that a string does not have is not found in it. -/
theorem Coded.free_of_code (h : Coded S s) (hplain : Plain S) {a b : Char} (hab : (a, b) ∉ S) :
    ¬ ['%', a, b] <:+: s := by
  induction h with
  | nil => simp
  | @char x s hx _ ih =>
    rw [infix_cons_iff, not_or]
    refine ⟨?_, ih⟩
    rintro ⟨t, ht⟩
    simp only [cons_append, List.cons.injEq] at ht
    exact hx ht.1.symm
  | @code a' b' s hab' _ ih =>
    have hplain := hplain _ hab'
    rw [infix_cons_iff, infix_cons_iff, infix_cons_iff, not_or, not_or, not_or]
    refine ⟨?_, ?_, ?_, ih⟩
    · rintro ⟨t, ht⟩
      simp only [cons_append, List.cons.injEq] at ht
      obtain ⟨-, rfl, rfl, -⟩ := ht
      exact hab hab'
    · rintro ⟨t, ht⟩
      simp only [cons_append, List.cons.injEq] at ht
      exact hplain.1 ht.1.symm
    · rintro ⟨t, ht⟩
      simp only [cons_append, List.cons.injEq] at ht
      exact hplain.2 ht.1.symm

/-- An escape is read back where the string does not have its code yet. -/
theorem unescape_escape (h : Coded S s) (hfree : Free S c) (hplain : Plain S)
    (hcode : code hi lo = true) (hnew : ∀ p ∈ S, code p.1 p.2 = false) :
    unescape code c (escape c hi lo s) = s := by
  induction h with
  | nil => rfl
  | @char x s hx _ ih =>
    by_cases hxc : x = c
    · subst hxc
      rw [escape_cons_self, unescape_code, if_pos hcode, ih]
    · rw [escape_cons_of_ne hxc, unescape_of_ne hx, ih]
  | @code a b s hab _ ih =>
    have hne := hfree.2 _ hab
    have hplain := hplain _ hab
    rw [escape_cons_of_ne (Ne.symm hfree.1), escape_cons_of_ne hne.1, escape_cons_of_ne hne.2,
      unescape_code, hnew _ hab, if_neg Bool.false_ne_true, unescape_of_ne hplain.1,
      unescape_of_ne hplain.2, ih]

/-- A `%` is read back, whatever the string is. -/
theorem unescape_escape_percent (hcode : code hi lo = true) (s : List Char) :
    unescape code '%' (escape '%' hi lo s) = s := by
  induction s with
  | nil => rfl
  | cons x s ih =>
    by_cases hx : x = '%'
    · subst hx
      rw [escape_cons_self, unescape_code, if_pos hcode, ih]
    · rw [escape_cons_of_ne hx, unescape_of_ne hx, ih]

theorem coded_escape_percent (s : List Char) : Coded [(hi, lo)] (escape '%' hi lo s) := by
  induction s with
  | nil => exact .nil
  | cons x s ih =>
    by_cases hx : x = '%'
    · subst hx
      rw [escape_cons_self]
      exact .code mem_cons_self ih
    · rw [escape_cons_of_ne hx]
      exact .char hx ih

theorem Coded.escape (h : Coded S s) (hfree : Free S c) : Coded ((hi, lo) :: S) (escape c hi lo s) := by
  induction h with
  | nil => exact .nil
  | @char x s hx _ ih =>
    by_cases hxc : x = c
    · subst hxc
      rw [escape_cons_self]
      exact .code mem_cons_self ih
    · rw [escape_cons_of_ne hxc]
      exact .char hx ih
  | @code a b s hab _ ih =>
    have hne := hfree.2 _ hab
    rw [escape_cons_of_ne (Ne.symm hfree.1), escape_cons_of_ne hne.1, escape_cons_of_ne hne.2]
    exact .code (mem_cons_of_mem _ hab) ih

theorem Coded.replace (h : Coded S s) (hfree : Free S c) (hd : d ≠ '%') : Coded S (replace c d s) := by
  induction h with
  | nil => exact .nil
  | @char x s hx _ ih =>
    refine .char ?_ ih
    dsimp only
    split
    · exact hd
    · exact hx
  | @code a b s hab _ ih =>
    have hne := hfree.2 _ hab
    have hkeep : Escape.replace c d ('%' :: a :: b :: s) = '%' :: a :: b :: Escape.replace c d s := by
      unfold Escape.replace
      rw [map_cons, map_cons, map_cons, if_neg (Ne.symm hfree.1), if_neg hne.1, if_neg hne.2]
    rw [hkeep]
    exact .code hab ih

theorem pair_cons_of_ne {x : Char} (hx : x ≠ c) (s : List Char) : pair c d (x :: s) = x :: pair c d s := by
  cases s with
  | nil => rfl
  | cons y s => rw [pair, if_neg fun h => hx h.1]

theorem Coded.pair (h : Coded S s) (hfree : Free S c) (hd : d ≠ '%') : Coded S (pair c d s) := by
  -- the two characters are looked at together, so the induction is on the length
  induction hn : s.length using Nat.strong_induction_on generalizing s with
  | _ n ih =>
    cases h with
    | nil => exact .nil
    | @code a b s hab hs =>
      have hne := hfree.2 _ hab
      rw [pair_cons_of_ne (Ne.symm hfree.1), pair_cons_of_ne hne.1, pair_cons_of_ne hne.2]
      exact .code hab (ih s.length (by simp at hn; omega) hs rfl)
    | @char x s hx hs =>
      by_cases hxc : x = c
      · subst hxc
        cases hs with
        | nil => exact .char hx .nil
        | code hab hs =>
          rw [Escape.pair, if_neg fun h => hfree.1 h.2.symm]
          exact .char hx (ih _ (by simp at hn; simp; omega) (.code hab hs) rfl)
        | @char y s hy hs =>
          rw [Escape.pair]
          split
          · exact .char hd (ih s.length (by simp at hn; omega) hs rfl)
          · exact .char hx (ih _ (by simp at hn; simp; omega) (.char hy hs) rfl)
      · rw [pair_cons_of_ne hxc]
        exact .char hx (ih s.length (by simp at hn; omega) hs rfl)

end

end Escape
