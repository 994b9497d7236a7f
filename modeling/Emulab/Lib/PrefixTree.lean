import Mathlib.Tactic

/-! # Prefix trees

  A binary tree whose paths are prefixes of keys. Every node picks a choice
  from its own data and from the choice of the node above, and a prefix is
  announced where the two differ. The main result is that the longest
  announced prefix of a key carries the choice at the end of its path.
-/

/-- A binary tree in which a child may be missing. -/
inductive PrefixTree (δ : Type) where
  | null
  | node (data : δ) (zero one : PrefixTree δ)
  deriving DecidableEq, Repr

namespace PrefixTree

open List

variable {δ η : Type}

def child (zero one : PrefixTree δ) (bit : Bool) : PrefixTree δ := if bit then one else zero

@[simp] theorem child_false (zero one : PrefixTree δ) : child zero one false = zero := rfl

@[simp] theorem child_true (zero one : PrefixTree δ) : child zero one true = one := rfl

/-- What is stored where the path of the key ends. -/
def at? : PrefixTree δ → List Bool → Option δ
  | null, _ => none
  | node d _ _, [] => some d
  | node _ z o, b :: k => (child z o b).at? k

/-- All paths are of length `n`. The data of a node satisfies `P` for the length that is left. -/
def Grown (P : Nat → δ → Prop) : Nat → PrefixTree δ → Prop
  | _, null => True
  | 0, node d z o => P 0 d ∧ z = null ∧ o = null
  | n + 1, node d z o => P (n + 1) d ∧ (z ≠ null ∨ o ≠ null) ∧ z.Grown P n ∧ o.Grown P n

@[simp] theorem grown_null {P : Nat → δ → Prop} (n : Nat) : (null : PrefixTree δ).Grown P n := by
  cases n <;> trivial

theorem Grown.node {P : Nat → δ → Prop} {n : Nat} {d : δ} {z o : PrefixTree δ}
    (h : (node d z o).Grown P n) : P n d ∧ z.Grown P (n - 1) ∧ o.Grown P (n - 1) := by
  cases n with
  | zero =>
    obtain ⟨hd, rfl, rfl⟩ := h
    exact ⟨hd, grown_null _, grown_null _⟩
  | succ n => exact ⟨h.1, h.2.2⟩

/-! ## Announcing -/

section announce

variable [DecidableEq η] (pick : η → δ → η)

/-- The prefixes at which the choice changes, each with the new choice. -/
def announce : η → PrefixTree δ → List (List Bool × η)
  | _, null => []
  | h, node d z o =>
    let h' := pick h d
    (if h' = h then [] else [([], h')]) ++ ((announce h' z).map fun e => (false :: e.1, e.2)) ++
      ((announce h' o).map fun e => (true :: e.1, e.2))

/-- The choice at the end of the path of a key, or where the path leaves the tree. -/
def follow : η → PrefixTree δ → List Bool → η
  | h, null, _ => h
  | h, node d _ _, [] => pick h d
  | h, node d z o, b :: k => follow (pick h d) (child z o b) k

variable {pick}

variable {e : List Bool × η}

theorem mem_announce_node {h : η} {d : δ} {z o : PrefixTree δ} :
    e ∈ announce pick h (node d z o) ↔ (e = ([], pick h d) ∧ pick h d ≠ h) ∨
      ∃ b, ∃ e' ∈ announce pick (pick h d) (child z o b), e = (b :: e'.1, e'.2) := by
  simp only [announce, mem_append, mem_map]
  constructor
  · rintro ((hown | ⟨e', he', rfl⟩) | ⟨e', he', rfl⟩)
    · split at hown
      · cases hown
      · rename_i hne
        exact Or.inl ⟨by simpa using hown, hne⟩
    · exact Or.inr ⟨false, e', he', rfl⟩
    · exact Or.inr ⟨true, e', he', rfl⟩
  · rintro (⟨rfl, hne⟩ | ⟨b, e', he', rfl⟩)
    · exact Or.inl (Or.inl (by simp [hne]))
    · cases b with
      | false => exact Or.inl (Or.inr ⟨e', he', rfl⟩)
      | true => exact Or.inr ⟨e', he', rfl⟩

variable {t : PrefixTree δ}

/-- Without an announcement the choice of above stands. -/
theorem follow_of_silent {h : η} {k : List Bool}
    (hsilent : ∀ e ∈ announce pick h t, ¬e.1 <+: k) : follow pick h t k = h := by
  induction t generalizing h k with
  | null => cases k <;> rfl
  | node d z o ihz iho =>
    have hpick : pick h d = h := by
      by_contra hne
      exact hsilent ([], pick h d) (mem_announce_node.mpr (Or.inl ⟨rfl, hne⟩)) nil_prefix
    cases k with
    | nil => exact hpick
    | cons b k =>
      have hchild : ∀ e ∈ announce pick h (child z o b), ¬e.1 <+: k := by
        intro e he hpre
        refine hsilent (b :: e.1, e.2) (mem_announce_node.mpr (Or.inr ⟨b, e, ?_, rfl⟩)) ?_
        · rwa [hpick]
        · exact cons_prefix_cons.mpr ⟨rfl, hpre⟩
      rw [follow, hpick]
      cases b with
      | false => exact ihz hchild
      | true => exact iho hchild

/-- The longest announced prefix of a key carries the choice at the end of its path. -/
theorem longest_follow {h : η} {k : List Bool} (he : e ∈ announce pick h t) (hpre : e.1 <+: k)
    (hlongest : ∀ e' ∈ announce pick h t, e'.1 <+: k → e'.1.length ≤ e.1.length) : e.2 = follow pick h t k := by
  induction t generalizing h k e with
  | null => cases he
  | node d z o ihz iho =>
    rcases mem_announce_node.mp he with ⟨rfl, hne⟩ | ⟨b, e', he', rfl⟩
    · -- nothing below is announced for the key
      cases k with
      | nil => rfl
      | cons b k =>
        rw [follow, follow_of_silent]
        intro e' he' hpre'
        have := hlongest (b :: e'.1, e'.2) (mem_announce_node.mpr (Or.inr ⟨b, e', he', rfl⟩))
          (cons_prefix_cons.mpr ⟨rfl, hpre'⟩)
        simp at this
    · clear he
      cases k with
      | nil => simp at hpre
      | cons b' k =>
        obtain ⟨rfl, hpre'⟩ := cons_prefix_cons.mp hpre
        have hchild : ∀ e'' ∈ announce pick (pick h d) (child z o b), e''.1 <+: k →
            e''.1.length ≤ e'.1.length := by
          intro e'' he'' hpre''
          have := hlongest (b :: e''.1, e''.2) (mem_announce_node.mpr (Or.inr ⟨b, e'', he'', rfl⟩))
            (cons_prefix_cons.mpr ⟨rfl, hpre''⟩)
          simpa using this
        rw [follow]
        cases b with
        | false => exact ihz (e := e') he' hpre' hchild
        | true => exact iho (e := e') he' hpre' hchild

omit [DecidableEq η] in
/-- The data at the end of the path decides, when it does not depend on what is above. -/
theorem follow_eq_of_at? {h x : η} {k : List Bool} {d : δ}
    (hat : t.at? k = some d) (hpick : ∀ h, pick h d = x) : follow pick h t k = x := by
  induction t generalizing h k with
  | null => simp [at?] at hat
  | node d' z o ihz iho =>
    cases k with
    | nil =>
      cases hat
      exact hpick h
    | cons b k =>
      cases b with
      | false => exact ihz hat
      | true => exact iho hat

/-- An announced prefix is no longer than the paths, and was picked at some node. -/
theorem Grown.announce {P : Nat → δ → Prop} {Q : η → Prop}
    (hpick : ∀ n h d, P n d → pick h d ≠ h → Q (pick h d)) {n : Nat} (ht : t.Grown P n) {h : η}
    (he : e ∈ announce pick h t) : e.1.length ≤ n ∧ Q e.2 := by
  induction t generalizing n h e with
  | null => cases he
  | node d z o ihz iho =>
    obtain ⟨hd, hz, ho⟩ := ht.node
    rcases mem_announce_node.mp he with ⟨rfl, hne⟩ | ⟨b, e', he', rfl⟩
    · exact ⟨by simp, hpick n h d hd hne⟩
    · have hchild : e'.1.length ≤ n - 1 ∧ Q e'.2 := by
        cases b with
        | false => exact ihz hz he'
        | true => exact iho ho he'
      have hpos : n ≠ 0 := by
        rintro rfl
        obtain ⟨-, rfl, rfl⟩ := ht
        cases b <;> cases he'
      exact ⟨by rw [length_cons]; omega, hchild.2⟩

theorem exists_at?_of_announce {h : η} (he : e ∈ PrefixTree.announce pick h t) : ∃ d, t.at? e.1 = some d := by
  induction t generalizing h e with
  | null => cases he
  | node d z o ihz iho =>
    rcases mem_announce_node.mp he with ⟨rfl, -⟩ | ⟨b, e', he', rfl⟩
    · exact ⟨d, rfl⟩
    · cases b with
      | false => exact ihz he'
      | true => exact iho he'

end announce

/-! ## Inserting -/

section insert

def dataD (fresh : δ) : PrefixTree δ → δ
  | null => fresh
  | node d _ _ => d

def zero : PrefixTree δ → PrefixTree δ
  | null => null
  | node _ z _ => z

def one : PrefixTree δ → PrefixTree δ
  | null => null
  | node _ _ o => o

variable (fresh : δ) (update : Nat → δ → δ)

/-- Goes down the path of the key, creating what is missing. Each node passed is updated by
    how much of the key is left. -/
def insert : List Bool → PrefixTree δ → PrefixTree δ
  | [], t => node (update 0 (t.dataD fresh)) t.zero t.one
  | b :: k, t =>
    node (update (k.length + 1) (t.dataD fresh))
      (if b then t.zero else insert k t.zero) (if b then insert k t.one else t.one)

variable {fresh update}

theorem at?_cons (t : PrefixTree δ) (b : Bool) (k : List Bool) :
    t.at? (b :: k) = (child t.zero t.one b).at? k := by
  cases t with
  | null => cases b <;> simp [at?, zero, one]
  | node d z o => rfl

theorem at?_insert_self (k : List Bool) (t : PrefixTree δ) :
    (insert fresh update k t).at? k = some (update 0 ((t.at? k).getD fresh)) := by
  induction k generalizing t with
  | nil => cases t <;> rfl
  | cons b k ih =>
    rw [at?_cons t]
    cases b with
    | false => exact ih t.zero
    | true => exact ih t.one

/-- The other keys of that length end where they did. -/
theorem at?_insert_ne {k k' : List Bool} (hlength : k'.length = k.length) (hne : k' ≠ k)
    (t : PrefixTree δ) : (insert fresh update k t).at? k' = t.at? k' := by
  induction k generalizing k' t with
  | nil => exact absurd (eq_nil_of_length_eq_zero hlength) hne
  | cons b k ih =>
    cases k' with
    | nil => simp at hlength
    | cons b' k' =>
      have hlength' : k'.length = k.length := by simpa using hlength
      rw [at?_cons t]
      by_cases hb : b' = b
      · subst hb
        have hne' : k' ≠ k := fun h => hne (by rw [h])
        cases b' with
        | false => exact ih hlength' hne' t.zero
        | true => exact ih hlength' hne' t.one
      · cases b <;> cases b' <;> first | exact absurd rfl hb | rfl

theorem insert_ne_null (k : List Bool) (t : PrefixTree δ) : insert fresh update k t ≠ null := by
  cases k <;> simp [insert]

theorem Grown.children {P : Nat → δ → Prop} {n : Nat} {t : PrefixTree δ} (ht : t.Grown P (n + 1)) :
    t.zero.Grown P n ∧ t.one.Grown P n := by
  cases t with
  | null => exact ⟨grown_null n, grown_null n⟩
  | node d z o => exact ⟨ht.2.2.1, ht.2.2.2⟩

theorem Grown.dataD {P : Nat → δ → Prop} {n : Nat} {t : PrefixTree δ} (ht : t.Grown P n) :
    t.dataD fresh = fresh ∨ P n (t.dataD fresh) := by
  cases t with
  | null => exact Or.inl rfl
  | node d z o =>
    cases n with
    | zero => exact Or.inr ht.1
    | succ n => exact Or.inr ht.1

theorem Grown.insert {P : Nat → δ → Prop} (hupdate : ∀ n d, d = fresh ∨ P n d → P n (update n d)) (k : List Bool)
    {t : PrefixTree δ} (ht : t.Grown P k.length) : (insert fresh update k t).Grown P k.length := by
  induction k generalizing t with
  | nil =>
    have hdata := hupdate 0 _ ht.dataD
    cases t with
    | null => exact ⟨hdata, rfl, rfl⟩
    | node d z o => exact ⟨hdata, ht.2.1, ht.2.2⟩
  | cons b k ih =>
    have hdata := hupdate (k.length + 1) _ ht.dataD
    obtain ⟨hz, ho⟩ := ht.children
    cases b with
    | false => exact ⟨hdata, Or.inl (insert_ne_null k _), ih hz, ho⟩
    | true => exact ⟨hdata, Or.inr (insert_ne_null k _), hz, ih ho⟩

/-- A root without data or children is as good as none. -/
theorem insert_fresh (k : List Bool) :
    insert fresh update k (node fresh null null) = insert fresh update k null := by
  cases k <;> rfl

end insert

/-! ## Inserting a list of keys -/

section insertAll

variable {α : Type} (fresh : δ) (update : α → Nat → δ → δ)

def insertAll (l : List (List Bool × α)) (t : PrefixTree δ) : PrefixTree δ :=
  l.foldl (fun t e => insert fresh (update e.2) e.1 t) t

variable {fresh update}

variable {l : List (List Bool × α)}

/-- The data at the end of a path is updated for the keys of that path only. -/
theorem at?_insertAll {n : Nat} (hlength : ∀ e ∈ l, e.1.length = n) {k : List Bool} (hk : k.length = n) :
    (insertAll fresh update l null).at? k = (l.filter fun e => e.1 = k).foldl
      (fun d e => some (update e.2 0 (d.getD fresh))) none := by
  induction l using List.reverseRecOn with
  | nil => simp [insertAll, at?]
  | append_singleton l e ih =>
    have ih := ih fun e' he' => hlength e' (by simp [he'])
    rw [filter_append]
    unfold insertAll at ih ⊢
    rw [foldl_append, foldl_append, ← ih]
    by_cases he : e.1 = k
    · subst he
      simp [at?_insert_self]
    · have := hlength e (by simp)
      simp [he, at?_insert_ne (hk.trans this.symm) (Ne.symm he)]

/-- A key of the list ends at data that its updates established. -/
theorem exists_at?_insertAll (fresh : δ) (update : α → Nat → δ → δ) {Q : δ → Prop} {n : Nat}
    (hlength : ∀ e ∈ l, e.1.length = n) {k : List Bool} (hk : ∃ e ∈ l, e.1 = k)
    (hupdate : ∀ e ∈ l, e.1 = k → ∀ d, d = fresh ∨ Q d → Q (update e.2 0 d)) :
    ∃ d, (insertAll fresh update l null).at? k = some d ∧ Q d := by
  have hfold : ∀ (m : List (List Bool × α)) (hm : ∀ e ∈ m, e ∈ l ∧ e.1 = k) (o : Option δ),
      (∀ d, o = some d → Q d) → (m ≠ [] ∨ o ≠ none) →
      ∃ d, m.foldl (fun d e => some (update e.2 0 (d.getD fresh))) o = some d ∧ Q d := by
    intro m
    induction m with
    | nil =>
      rintro - o hQ (hnil | hne)
      · exact absurd rfl hnil
      · obtain ⟨d, rfl⟩ := Option.ne_none_iff_exists'.mp hne
        exact ⟨d, rfl, hQ d rfl⟩
    | cons e m ih =>
      intro hm o hQ _
      refine ih (fun e' he' => hm e' (by simp [he'])) _ ?_ (Or.inr (by simp))
      rintro d hd
      cases hd
      refine hupdate e (hm e (by simp)).1 (hm e (by simp)).2 _ ?_
      cases o with
      | none => exact Or.inl rfl
      | some d => exact Or.inr (hQ d rfl)
  obtain ⟨e, he, rfl⟩ := hk
  rw [at?_insertAll hlength (hlength e he)]
  refine hfold _ ?_ none (by simp) (Or.inl ?_)
  · intro e' he'
    simpa using he'
  · exact ne_nil_of_mem (mem_filter.mpr ⟨he, by simp⟩)

theorem Grown.insertAll {P : Nat → δ → Prop} {n : Nat} (hlength : ∀ e ∈ l, e.1.length = n)
    (hupdate : ∀ e ∈ l, ∀ n d, d = fresh ∨ P n d → P n (update e.2 n d)) {t : PrefixTree δ}
    (ht : t.Grown P n) : (insertAll fresh update l t).Grown P n := by
  induction l generalizing t with
  | nil => exact ht
  | cons e l ih =>
    refine ih (fun e' he' => hlength e' (by simp [he'])) (fun e' he' => hupdate e' (by simp [he'])) ?_
    have he := hlength e (by simp)
    subst he
    exact ht.insert (hupdate e (by simp)) e.1

theorem insertAll_ne_null (hl : l ≠ []) (t : PrefixTree δ) : insertAll fresh update l t ≠ null := by
  induction l using List.reverseRecOn with
  | nil => exact absurd rfl hl
  | append_singleton l e _ =>
    unfold insertAll
    rw [foldl_append]
    exact insert_ne_null _ _

theorem insertAll_fresh (hl : l ≠ []) :
    insertAll fresh update l (node fresh null null) = insertAll fresh update l null := by
  cases l with
  | nil => exact absurd rfl hl
  | cons e l =>
    unfold insertAll
    rw [foldl_cons, foldl_cons, insert_fresh]

end insertAll

end PrefixTree
