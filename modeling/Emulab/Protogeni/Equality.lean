import Emulab.Protogeni.RoundTrip

/-! # Comparing URNs

  URNs are compared by what is generated of their parts. A URN of which nothing is
  generated compares equal to all the others of that kind, so the comparison is as
  good as the generator's characters are.
-/

namespace Emulab.Protogeni

open Escape

variable {W : WordClass}

/-! ## Section 1: The parts of a valid URN -/

theorem alnum_of_isHex {c : Char} (h : isHex c = true) : alnum c = true := by
  unfold isHex inRange at h
  rw [alnum_iff]
  simp only [Bool.or_eq_true, decide_eq_true_eq, Char.reduceToNat] at h
  omega

variable {s : Str}

theorem mem_of_matchId (h : matchId s = true) : ∀ c ∈ s, c = '%' ∨ idChar c = true := by
  have halnum : ∀ {c}, alnum c = true → idChar c = true := by
    intro c hc
    unfold idChar
    rw [hc, Bool.true_or]
  fun_induction matchId s with
  | case1 a b s ih =>
    simp only [Bool.and_eq_true] at h
    intro c hc
    simp only [List.mem_cons] at hc
    rcases hc with rfl | rfl | rfl | hc
    · exact Or.inl rfl
    · exact Or.inr (halnum (alnum_of_isHex h.1.1))
    · exact Or.inr (halnum (alnum_of_isHex h.1.2))
    · exact ih h.2 c hc
  | case2 x s hx ih =>
    rw [Bool.and_eq_true] at h
    intro c hc
    rcases List.mem_cons.mp hc with rfl | hc
    · exact Or.inr h.1
    · exact ih h.2 c hc
  | case3 => simp

theorem newline_not_mem_of_matchId (h : matchId s = true) : '\n' ∉ s := by
  intro hn
  rcases mem_of_matchId h _ hn with h | h
  · exact absurd h (by decide)
  · exact absurd h (by decide)

theorem line_of_beforeEnd (h : beforeEnd (fun id => id ≠ [] && matchId id) s = true) :
    ∃ id, line s = some id ∧ id ≠ [] ∧ matchId id = true := by
  unfold beforeEnd at h
  simp only [Bool.or_eq_true, Bool.and_eq_true, decide_eq_true_eq] at h
  rcases h with ⟨hne, hid⟩ | ⟨hlast, hne, hid⟩
  · exact ⟨s, line_of_not_mem (newline_not_mem_of_matchId hid), hne, hid⟩
  · refine ⟨s.dropLast, ?_, hne, hid⟩
    unfold line
    rw [if_neg (not_not.mpr (List.mem_of_getLast? hlast)), if_pos ⟨hlast, newline_not_mem_of_matchId hid⟩]

theorem parse_of_isValid {u : Str} (h : IsValid W u = true) :
    ∃ a t id, Parse W u = some (a, t, Untranscribe id) ∧ a ≠ [] ∧ matchAuthority false false a = true ∧
      t ≠ [] ∧ (∀ c ∈ t, W.mem c = true) ∧ id ≠ [] ∧ matchId id = true := by
  have hvalid := h
  unfold IsValid at h
  split at h
  · cases h
  unfold matchUrn at h
  split at h
  · cases h
  rename_i nid s₁ h₁
  split at h
  · cases h
  rename_i a s₂ h₂
  split at h
  · cases h
  rename_i t s₃ h₃
  simp only [Bool.and_eq_true, decide_eq_true_eq, List.all_eq_true] at h
  obtain ⟨⟨⟨-, hauth⟩, ht, htype⟩, hid⟩ := h
  obtain ⟨id, hline, hid0, hid⟩ := line_of_beforeEnd hid
  have ha : a ≠ [] := by
    rintro rfl
    cases hauth
  refine ⟨a, t, id, ?_, ha, hauth, ht, htype, hid0, hid⟩
  unfold Parse urnParts
  rw [if_pos hvalid, h₁]
  simp only [Option.bind_eq_bind, Option.bind_some]
  rw [h₂]
  simp only [Option.bind_some]
  rw [h₃]
  simp only [Option.bind_some]
  rw [hline, Option.bind_some, if_neg (by simp [ha, ht, hid0])]
  rfl

/-- The characters that escapes and separators stand for. -/
def unescaped : Str := ['/', ':', '?', ';', '+', '\'', '#', '%']

/-- Where the characters of an id come from. -/
theorem mem_untranscribe (hs : matchId s = true) {x : Char} (h : x ∈ Untranscribe s) :
    idChar x = true ∨ x ∈ unescaped := by
  have hstep : ∀ {code : Char → Char → Bool} {c : Char} {t : Str}, c ∈ unescaped →
      x ∈ unescape code c t → (x ∈ t → idChar x = true ∨ x ∈ unescaped) →
      idChar x = true ∨ x ∈ unescaped := by
    intro code c t hc h ht
    rcases mem_unescape h with h | rfl
    · exact ht h
    · exact Or.inr hc
  have hplus : '+' ∉ unpair ':' ';' (unescape (code '3' 'A') ':' (unpair '/' ':'
      (unescape (code '2' 'F') '/' s))) := by
    intro h
    have h := (mem_unescape ((mem_unpair h).resolve_right (by decide))).resolve_right (by decide)
    have h := (mem_unescape ((mem_unpair h).resolve_right (by decide))).resolve_right (by decide)
    rcases mem_of_matchId hs _ h with h | h
    · exact absurd h (by decide)
    · exact absurd h (by decide)
  unfold Untranscribe at h
  dsimp only at h
  rw [replace_of_not_mem hplus] at h
  refine hstep (by decide) h fun h => hstep (by decide) h fun h => hstep (by decide) h fun h =>
    hstep (by decide) h fun h => hstep (by decide) h fun h => hstep (by decide) h fun h => ?_
  rcases mem_unpair h with h | rfl
  swap
  · exact Or.inr (by decide)
  refine hstep (by decide) h fun h => ?_
  rcases mem_unpair h with h | rfl
  swap
  · exact Or.inr (by decide)
  refine hstep (by decide) h fun h => ?_
  rcases mem_of_matchId hs x h with rfl | h
  · exact Or.inr (by decide)
  · exact Or.inl h

theorem untranscribe_eq_nil : Untranscribe s = [] ↔ s = [] := by
  unfold Untranscribe replace
  dsimp only
  simp only [unescape_eq_nil, List.map_eq_nil_iff, unpair_eq_nil]

theorem no_space_untranscribe (hs : matchId s = true) : ∀ c ∈ Untranscribe s, isSpace c = false := by
  intro c hc
  rw [Bool.eq_false_iff]
  intro hblank
  unfold isSpace at hblank
  simp only [List.mem_cons, List.not_mem_nil, or_false, decide_eq_true_eq] at hblank
  rcases mem_untranscribe hs hc with h | h
  · rcases hblank with rfl | rfl | rfl | rfl <;> exact absurd h (by decide)
  · rcases hblank with rfl | rfl | rfl | rfl <;> exact absurd h (by decide)

/-! ## Section 2: The characters of the generator -/

/-- The characters of a matched authority are those of the generator, but for underscores. -/
theorem only_authority_iff {a : Str} (ha : a ≠ []) (h : matchAuthority false false a = true) :
    only generateAuthorityChar (lower a) = true ↔ '_' ∉ a := by
  have hmem := mem_of_matchAuthority h
  have hlower := mem_of_matchAuthority ((matchAuthority_lower false false a).trans h)
  have hunder : ∀ c, lowerChar c = '_' ↔ c = '_' := by
    intro c
    rw [← Char.toNat_inj, ← Char.toNat_inj (c := c), toNat_lowerChar]
    have : '_'.toNat = 95 := rfl
    split <;> omega
  have hiff : '_' ∈ lower a ↔ '_' ∈ a := by
    unfold lower
    rw [List.mem_map]
    constructor
    · rintro ⟨c, hc, heq⟩
      exact (hunder c).mp heq ▸ hc
    · exact fun h => ⟨'_', h, by decide⟩
  rw [← hiff]
  constructor
  · exact fun h => not_mem_of_only h (by decide) (by decide)
  · intro hnot
    refine only_of_mem (by simpa [lower] using ha) fun c hc => ?_
    rcases hlower c hc with rfl | h
    · decide
    · have hc : c ≠ '_' := fun h => hnot (h ▸ hc)
      unfold authorityChar at h
      unfold generateAuthorityChar
      simp only [Bool.or_eq_true, Bool.true_and, decide_eq_true_eq, List.mem_cons,
        List.not_mem_nil, or_false] at h ⊢
      rcases h with ((h | h) | h) | h
      · exact Or.inl h
      · exact Or.inr (Or.inr (Or.inl h))
      · exact Or.inr (Or.inl h)
      · exact absurd h hc

theorem only_type_iff {t : Str} (ht : t ≠ []) (h : ∀ c ∈ t, W.mem c = true) :
    only generateTypeChar t = true ↔ ∀ c ∈ t, generateTypeChar c = true := by
  have hn : '\n' ∉ t := by
    intro hn
    have h := h _ hn
    rw [W.ascii _ (by decide)] at h
    exact absurd h (by decide)
  rw [only_iff hn]
  exact ⟨fun h => h.2, fun h => ⟨ht, h⟩⟩

theorem only_id_iff (hs0 : s ≠ []) (hs : matchId s = true) :
    only generateIdChar (Untranscribe s) = true ↔ '$' ∉ Untranscribe s ∧ '%' ∉ Untranscribe s := by
  constructor
  · intro h
    exact ⟨not_mem_of_only h (by decide) (by decide), not_mem_of_only h (by decide) (by decide)⟩
  · rintro ⟨hdollar, hpercent⟩
    refine only_of_mem (untranscribe_eq_nil.not.mpr hs0) fun c hc => ?_
    have hcd : c ≠ '$' := fun h => hdollar (h ▸ hc)
    have hcp : c ≠ '%' := fun h => hpercent (h ▸ hc)
    have hmem := mem_untranscribe hs hc
    unfold idChar unescaped at hmem
    unfold generateIdChar formatPageNumber
    simp only [List.mem_cons, List.not_mem_nil, or_false, Bool.or_eq_true, decide_eq_true_eq] at hmem ⊢
    grind

/-! ## Section 3: Normal forms -/

/-- The parts of a URN that are generated, and give a valid URN. -/
structure Regular (authority type id : Str) : Prop where
  authority_ok : '_' ∉ authority
  type_ok : ∀ c ∈ type, generateTypeChar c = true
  id_ok : '$' ∉ id ∧ '%' ∉ id
  colons_ok : ¬ [':', ':'] <:+: id

instance (authority type id : Str) : Decidable (Regular authority type id) :=
  decidable_of_iff ('_' ∉ authority ∧ (∀ c ∈ type, generateTypeChar c = true) ∧ ('$' ∉ id ∧ '%' ∉ id) ∧
      ¬ [':', ':'] <:+: id)
    ⟨fun h => ⟨h.1, h.2.1, h.2.2.1, h.2.2.2⟩, fun h => ⟨h.1, h.2, h.3, h.4⟩⟩

/-- A URN whose parts are regular. -/
def Named (W : WordClass) (hrn : Str) : Prop :=
  ∃ p, Parse W hrn = some p ∧ Regular p.1 p.2.1 p.2.2

instance (W : WordClass) (hrn : Str) : Decidable (Named W hrn) :=
  match h : Parse W hrn with
  | none => isFalse fun ⟨_, hp, _⟩ => by rw [h] at hp; cases hp
  | some p =>
    decidable_of_iff (Regular p.1 p.2.1 p.2.2)
      ⟨fun hr => ⟨p, h, hr⟩, fun ⟨_, hq, hr⟩ => Option.some.inj (h.symm.trans hq) ▸ hr⟩

section

variable {u v n : Str}

theorem normalise_eq {p : Str × Str × Str} (h : Parse W u = some p) :
    Normalise W u = Generate p.1 p.2.1 p.2.2 := by
  unfold Normalise
  rw [if_pos (isValid_of_parse h), h, Option.bind_some]

theorem normalise_spec {a t id : Str} (hparse : Parse W u = some (a, t, Untranscribe id)) (ha : a ≠ [])
    (hauth : matchAuthority false false a = true) (ht : t ≠ []) (htype : ∀ c ∈ t, W.mem c = true)
    (hid0 : id ≠ []) (hid : matchId id = true) : Normalise W u = some n ↔
      '_' ∉ a ∧ (∀ c ∈ t, generateTypeChar c = true) ∧ ('$' ∉ Untranscribe id ∧ '%' ∉ Untranscribe id) ∧
        n = urn (lower a) t (Transcribe (Untranscribe id)) := by
  rw [normalise_eq hparse, generate_eq_some, only_authority_iff ha hauth, only_type_iff ht htype,
    only_id_iff hid0 hid]

/-- A URN has a normal form that is its own normal form exactly if its parts are regular. -/
theorem normalise_idempotent_iff (hu : IsValid W u = true) :
    (∃ n, Normalise W u = some n ∧ Normalise W n = some n) ↔ Named W u := by
  obtain ⟨a, t, id, hparse, ha, hauth, ht, htype, hid0, hid⟩ := parse_of_isValid hu
  have hspec : ∀ {n}, Normalise W u = some n ↔ _ := normalise_spec hparse ha hauth ht htype hid0 hid
  have hnormal := normalSpace_of_no_space (no_space_untranscribe hid)
  have hvalid : ∀ {n}, Normalise W u = some n → (IsValid W n = true ↔ ¬ [':', ':'] <:+: Untranscribe id) := by
    intro n hn
    rw [normalise_eq hparse] at hn
    rw [isValid_generate hn, hnormal]
    have hblank : ' ' ∉ Untranscribe id := fun h => absurd (no_space_untranscribe hid _ h) (by decide)
    exact ⟨fun h => h.2.2.2.2, fun h => ⟨(matchAuthority_lower _ _ a).trans hauth, htype,
      untranscribe_eq_nil.not.mpr hid0, hblank, h⟩⟩
  constructor
  · rintro ⟨n, hn, hnn⟩
    obtain ⟨hauthority, htype', hchars, -⟩ := hspec.mp hn
    have hn' : IsValid W n = true := by
      unfold Normalise at hnn
      split at hnn
      · assumption
      · cases hnn
    exact ⟨_, hparse, hauthority, htype', hchars, (hvalid hn).mp hn'⟩
  · rintro ⟨p, hp, hregular⟩
    obtain rfl := Option.some.inj (hparse.symm.trans hp)
    have hn := hspec.mpr ⟨hregular.authority_ok, hregular.type_ok, hregular.id_ok, rfl⟩
    refine ⟨_, hn, ?_⟩
    -- the authority is in lower case already, and there is no white space
    have hgen : Generate a t (Untranscribe id) = some _ := (normalise_eq hparse).symm.trans hn
    have hparse' := parse_generate hgen ((hvalid hn).mpr hregular.colons_ok)
    rw [hnormal] at hparse'
    rw [normalise_eq hparse']
    obtain ⟨ha', ht', hi', -⟩ := generate_eq_some.mp hgen
    refine generate_eq_some.mpr ⟨?_, ht', hi', ?_⟩
    · rw [lower_lower]
      exact ha'
    · dsimp only
      rw [lower_lower]

theorem equal_eq_some_true (hu : IsValid W u = true) (hv : IsValid W v = true) :
    Equal W u v = some true ↔ (Normalise W u).getD [] = (Normalise W v).getD [] := by
  unfold Equal
  rw [hu, hv, Bool.and_self, if_pos rfl, Option.some.injEq, decide_eq_true_eq]

theorem urn_ne_nil {A t T : Str} : urn A t T ≠ [] := by
  unfold urn
  simp

theorem urn_inj {A t T A' t' T' : Str} (hA : '+' ∉ A) (ht : '+' ∉ t) (hA' : '+' ∉ A') (ht' : '+' ∉ t')
    (h : urn A t T = urn A' t' T') : A = A' ∧ t = t' ∧ T = T' := by
  unfold urn at h
  have h := List.cons_inj_right _ |>.mp (List.append_cancel_left h)
  have hcut := congrArg cut h
  rw [cut_append hA, cut_append hA', Option.some.injEq, Prod.mk.injEq] at hcut
  obtain ⟨rfl, hrest⟩ := hcut
  have hcut := congrArg cut hrest
  rw [cut_append ht, cut_append ht', Option.some.injEq, Prod.mk.injEq] at hcut
  exact ⟨rfl, hcut⟩

/-- A URN with a normal form compares equal to URNs of its own name only. -/
theorem parse_of_equal (hu : IsValid W u = true) (hv : IsValid W v = true) (hn : Normalise W u = some n)
    (h : Equal W u v = some true) : ∃ a a' t i, Parse W u = some (a, t, i) ∧
      Parse W v = some (a', t, i) ∧ lower a = lower a' := by
  obtain ⟨a, t, id, hparse, ha, hauth, ht, htype, hid0, hid⟩ := parse_of_isValid hu
  obtain ⟨a', t', id', hparse', ha', hauth', ht', htype', hid0', hid'⟩ := parse_of_isValid hv
  rw [equal_eq_some_true hu hv, hn, Option.getD_some] at h
  have hgen := (normalise_eq hparse).symm.trans hn
  obtain ⟨hau, hty, -, hnurn⟩ := generate_eq_some.mp hgen
  cases hn' : Normalise W v with
  | none =>
    rw [hn', hnurn] at h
    exact absurd h urn_ne_nil
  | some n' =>
    rw [hn', Option.getD_some] at h
    have hgen' := (normalise_eq hparse').symm.trans hn'
    obtain ⟨hau', hty', -, hnurn'⟩ := generate_eq_some.mp hgen'
    rw [hnurn, hnurn'] at h
    have hplus : ∀ {cls : Char → Bool} {s : Str}, only cls s = true → cls '+' = false → '+' ∉ s :=
      fun h hc => not_mem_of_only h hc (by decide)
    obtain ⟨hlower, rfl, htrans⟩ := urn_inj (hplus hau (by decide)) (hplus hty (by decide))
      (hplus hau' (by decide)) (hplus hty' (by decide)) h
    have hi : Untranscribe id = Untranscribe id' := by
      have heq := congrArg Untranscribe htrans
      dsimp only at heq
      rw [untranscribe_transcribe, untranscribe_transcribe, normalSpace_of_no_space (no_space_untranscribe hid),
        normalSpace_of_no_space (no_space_untranscribe hid')] at heq
      exact heq
    exact ⟨a, a', t, _, hparse, hi ▸ hparse', hlower⟩

end

/-! ## Section 4: Equality -/

/-- For a valid URN `u`, the laws of equality and normal forms, and that only URNs of one name are equal,
    hold exactly if the parts of `u` are regular. -/
theorem equal_lawful_iff (W : WordClass) (u v w : Str) (hu : IsValid W u = true) (hv : IsValid W v = true)
    (hw : IsValid W w = true) :
    (Equal W u u = some true ∧ (Equal W u v = some true → Equal W v u = some true) ∧
      (Equal W u v = some true → Equal W v w = some true → Equal W u w = some true) ∧
      (∃ n, Normalise W u = some n ∧ Normalise W n = some n) ∧
      (Equal W u v = some true → ∃ a a' t i, Parse W u = some (a, t, i) ∧
        Parse W v = some (a', t, i) ∧ lower a = lower a')) ↔ Named W u := by
  rw [equal_eq_some_true hu hu, equal_eq_some_true hu hv, equal_eq_some_true hv hu,
    equal_eq_some_true hv hw, equal_eq_some_true hu hw]
  constructor
  · rintro ⟨-, -, -, hn, -⟩
    exact (normalise_idempotent_iff hu).mp hn
  · intro hnamed
    obtain ⟨n, hn, hnn⟩ := (normalise_idempotent_iff hu).mpr hnamed
    refine ⟨rfl, Eq.symm, Eq.trans, ⟨n, hn, hnn⟩, ?_⟩
    intro h
    exact parse_of_equal hu hv hn ((equal_eq_some_true hu hv).mpr h)

theorem equal_lawful_iff_pc1 : Equal asciiWords "urn:publicid:IDN+emulab.net+node+pc1".toList
      "URN:publicid:IDN+Emulab.NET+node+pc%31".toList = some true ∧
    ∃ n, Normalise asciiWords "urn:publicid:IDN+emulab.net+node+pc1".toList = some n ∧
      Normalise asciiWords n = some n := by
  refine ⟨by decide, ?_⟩
  exact ((equal_lawful_iff asciiWords _ "URN:publicid:IDN+Emulab.NET+node+pc%31".toList
    "urn:publicid:IDN+emulab.net+node+pc1".toList (by decide) (by decide) (by decide)).mpr
    (by decide)).2.2.2.1

/-- Two URNs of different authorities, types and ids compare equal where both have an underscore in a
    sub-authority. -/
theorem different_names_equal : ¬ ∀ (W : WordClass) (u v : Str), IsValid W u = true → IsValid W v = true →
    Equal W u v = some true → ∃ a a' t i, Parse W u = some (a, t, i) ∧ Parse W v = some (a', t, i) ∧
      lower a = lower a' := by
  intro h
  obtain ⟨a, a', t, i, hu, hv, -⟩ := h asciiWords "urn:publicid:IDN+emulab.net:my_proj+slice+one".toList
    "urn:publicid:IDN+example.org:a_b+image+two".toList (by decide) (by decide) (by decide)
  have hu' : Parse asciiWords "urn:publicid:IDN+emulab.net:my_proj+slice+one".toList =
    some ("emulab.net:my_proj".toList, "slice".toList, "one".toList) := by decide
  have hv' : Parse asciiWords "urn:publicid:IDN+example.org:a_b+image+two".toList =
    some ("example.org:a_b".toList, "image".toList, "two".toList) := by decide
  rw [hu'] at hu
  rw [hv'] at hv
  cases hu
  cases hv

end Emulab.Protogeni
