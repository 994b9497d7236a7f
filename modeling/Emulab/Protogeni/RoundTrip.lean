import Emulab.Protogeni.Transcription

/-! # URNs that have been generated

  What is generated is taken apart at its plus signs, and is valid exactly if the
  authority and the type are those of a URN and the id has been transcribed to
  characters that the pattern of URNs has.
-/

namespace Emulab.Protogeni

open Escape

/-! ## Section 1: Characters -/

theorem toNat_lowerChar (c : Char) :
    (lowerChar c).toNat = if 65 ≤ c.toNat ∧ c.toNat ≤ 90 then c.toNat + 32 else c.toNat := by
  have hrange : inRange 'A' 'Z' c = decide (65 ≤ c.toNat ∧ c.toNat ≤ 90) := rfl
  unfold lowerChar
  rw [hrange]
  by_cases h : 65 ≤ c.toNat ∧ c.toNat ≤ 90
  · have hvalid : (c.toNat + 32).isValidChar := Or.inl (by omega)
    rw [if_pos (by simpa using h), if_pos h, Char.ofNat, dif_pos hvalid]
    rfl
  · rw [if_neg (by simpa using h), if_neg h]

theorem lowerChar_lowerChar (c : Char) : lowerChar (lowerChar c) = lowerChar c := by
  rw [← Char.toNat_inj, toNat_lowerChar (lowerChar c), if_neg]
  rw [toNat_lowerChar]
  split <;> omega

theorem lower_lower (s : Str) : lower (lower s) = lower s := by
  unfold lower
  rw [List.map_map]
  exact List.map_congr_left fun c _ => lowerChar_lowerChar c

theorem alnum_iff (c : Char) : alnum c = true ↔ (65 ≤ c.toNat ∧ c.toNat ≤ 90) ∨
    (97 ≤ c.toNat ∧ c.toNat ≤ 122) ∨ (48 ≤ c.toNat ∧ c.toNat ≤ 57) := by
  unfold alnum inRange
  simp only [Bool.or_eq_true, decide_eq_true_eq, or_assoc]
  rfl

/-- The case of a letter does not matter in an authority. -/
theorem authorityChar_lowerChar (sub : Bool) (c : Char) :
    authorityChar sub (lowerChar c) = authorityChar sub c := by
  have hchar : ∀ d : Char, ¬ (65 ≤ d.toNat ∧ d.toNat ≤ 90) → ¬ (97 ≤ d.toNat ∧ d.toNat ≤ 122) →
      (lowerChar c = d ↔ c = d) := by
    intro d hd hd'
    rw [← Char.toNat_inj, ← Char.toNat_inj (c := c), toNat_lowerChar]
    split <;> omega
  have halnum : alnum (lowerChar c) = alnum c := by
    rw [Bool.eq_iff_iff, alnum_iff, alnum_iff, toNat_lowerChar]
    split <;> omega
  unfold authorityChar
  rw [halnum, decide_eq_decide.mpr (hchar '.' (by decide) (by decide)),
    decide_eq_decide.mpr (hchar '-' (by decide) (by decide)),
    decide_eq_decide.mpr (hchar '_' (by decide) (by decide))]

theorem lowerChar_eq_colon (c : Char) : lowerChar c = ':' ↔ c = ':' := by
  rw [← Char.toNat_inj, ← Char.toNat_inj (c := c), toNat_lowerChar]
  have : ':'.toNat = 58 := rfl
  split <;> omega

theorem matchAuthority_lower (sub seen : Bool) (s : Str) :
    matchAuthority sub seen (lower s) = matchAuthority sub seen s := by
  induction s generalizing sub seen with
  | nil => rfl
  | cons c s ih =>
    show matchAuthority sub seen (lowerChar c :: lower s) = _
    rw [matchAuthority, matchAuthority, ih, ih, authorityChar_lowerChar]
    by_cases hc : c = ':'
    · rw [if_pos ((lowerChar_eq_colon c).mpr hc), if_pos hc]
    · rw [if_neg fun h => hc ((lowerChar_eq_colon c).mp h), if_neg hc]

variable {s : Str}

theorem mem_of_matchAuthority {sub seen : Bool} (h : matchAuthority sub seen s = true) :
    ∀ c ∈ s, c = ':' ∨ authorityChar true c = true := by
  induction s generalizing sub seen with
  | nil => simp
  | cons x s ih =>
    rw [matchAuthority] at h
    intro c hc
    by_cases hx : x = ':'
    · rw [if_pos hx, Bool.and_eq_true] at h
      rcases List.mem_cons.mp hc with rfl | hc
      · exact Or.inl hx
      · exact ih h.2 c hc
    · rw [if_neg hx, Bool.and_eq_true] at h
      rcases List.mem_cons.mp hc with rfl | hc
      · refine Or.inr ?_
        have h := h.1
        unfold authorityChar at h ⊢
        cases sub <;> simp_all
      · exact ih h.2 c hc

/-! ## Section 2: Taking a URN apart -/

theorem cut_append {a : Str} (ha : '+' ∉ a) (b : Str) : cut (a ++ '+' :: b) = some (a, b) := by
  induction a with
  | nil => rfl
  | cons c a ih =>
    rw [List.mem_cons, not_or] at ha
    rw [List.cons_append, cut, if_neg (Ne.symm ha.1), ih ha.2]
    rfl

theorem span_append {c : Char} {p : Str} (hp : c ∉ p) (s : Str) : (p ++ c :: s).span (· ≠ c) = (p, c :: s) := by
  have hall : ∀ x ∈ p, decide (x ≠ c) = true := by
    intro x hx
    exact decide_eq_true fun h => hp (h ▸ hx)
  rw [List.span_eq_takeWhile_dropWhile, List.takeWhile_append_of_pos hall, List.dropWhile_append_of_pos hall]
  simp

theorem span_of_not_mem {c : Char} (hs : c ∉ s) : s.span (· ≠ c) = (s, []) := by
  have hall : ∀ x ∈ s, decide (x ≠ c) = true := by
    intro x hx
    exact decide_eq_true fun h => hs (h ▸ hx)
  rw [List.span_eq_takeWhile_dropWhile, List.takeWhile_eq_self_iff.mpr hall, List.dropWhile_eq_nil_iff.mpr hall]

theorem line_of_not_mem (h : '\n' ∉ s) : line s = some s := if_pos h

theorem beforeEnd_of_not_mem {p : Str → Bool} (h : '\n' ∉ s) : beforeEnd p s = p s := by
  have hlast : s.getLast? ≠ some '\n' := fun hs => h (List.mem_of_getLast? hs)
  simp [beforeEnd, hlast]

/-- The escapes of a transcription are not those of unreserved characters. -/
theorem unescapeLoop_coded {t : Str} (ht : Coded codes t) (hn : '\n' ∉ t) (n : Nat) {p : Str}
    (hp : '%' ∉ p) : unescapeLoop n (p ++ t) = p ++ t := by
  induction n generalizing p t with
  | zero => rfl
  | succ n ih =>
    rw [unescapeLoop]
    rcases ht.split with ht | ⟨q, a, b, t', rfl, hq, hab, ht'⟩
    · rw [span_of_not_mem (by simp [hp, ht])]
    · have hpq : '%' ∉ p ++ q := by simp [hp, hq]
      have hcode : isHex a = true ∧ isHex b = true ∧ unescapeOctet a b = ['%', a, b] := by
        revert hab
        unfold codes
        simp only [List.mem_cons, Prod.mk.injEq, List.not_mem_nil, or_false]
        rintro (⟨rfl, rfl⟩ | ⟨rfl, rfl⟩ | ⟨rfl, rfl⟩ | ⟨rfl, rfl⟩ | ⟨rfl, rfl⟩ | ⟨rfl, rfl⟩ |
          ⟨rfl, rfl⟩ | ⟨rfl, rfl⟩) <;> decide
      have hn' : '\n' ∉ t' := fun h => hn (by simp [h])
      rw [← List.append_assoc, span_append hpq]
      dsimp only
      have hrest := ih ht' hn' List.not_mem_nil
      rw [List.nil_append] at hrest
      rw [hcode.1, hcode.2.1, Bool.and_self, if_pos rfl, line_of_not_mem hn', hcode.2.2]
      dsimp only
      rw [hrest]
      simp

theorem Unescape_coded {p t : Str} (hp : '%' ∉ p) (ht : Coded codes t) (hn : '\n' ∉ t) :
    Unescape (p ++ t) = p ++ t := unescapeLoop_coded ht hn _ hp

/-! ## Section 3: What is generated -/

def urn (authority type id : Str) : Str :=
  "urn:publicid:IDN".toList ++ '+' :: (authority ++ '+' :: (type ++ '+' :: id))

variable {cls : Char → Bool}

theorem mem_of_only (h : only cls s = true) : s ≠ [] ∧ ∀ c ∈ s, cls c = true ∨ c = '\n' := by
  unfold only beforeEnd at h
  simp only [Bool.or_eq_true, Bool.and_eq_true, decide_eq_true_eq, List.all_eq_true] at h
  rcases h with ⟨hne, hall⟩ | ⟨hlast, hne, hall⟩
  · exact ⟨hne, fun c hc => Or.inl (hall c hc)⟩
  · obtain ⟨p, rfl⟩ := List.getLast?_eq_some_iff.mp hlast
    refine ⟨by simp, fun c hc => ?_⟩
    rw [List.dropLast_concat] at hall
    rw [List.mem_append, List.mem_singleton] at hc
    exact hc.imp_left (hall c)

theorem only_of_mem (hne : s ≠ []) (h : ∀ c ∈ s, cls c = true) : only cls s = true := by
  unfold only beforeEnd
  simp only [Bool.or_eq_true, Bool.and_eq_true, decide_eq_true_eq, List.all_eq_true]
  exact Or.inl ⟨hne, h⟩

/-- A class without a newline is matched by the strings that are made of it. -/
theorem only_iff (hn : '\n' ∉ s) : only cls s = true ↔ s ≠ [] ∧ ∀ c ∈ s, cls c = true := by
  refine ⟨fun h => ?_, fun h => only_of_mem h.1 h.2⟩
  obtain ⟨hne, hall⟩ := mem_of_only h
  exact ⟨hne, fun c hc => (hall c hc).resolve_right fun h => hn (h ▸ hc)⟩

theorem generate_eq_some {a t i s : Str} : Generate a t i = some s ↔
    only generateAuthorityChar (lower a) = true ∧ only generateTypeChar t = true ∧
      only generateIdChar i = true ∧ s = urn (lower a) t (Transcribe i) := by
  have hassoc : ∀ nid A T : Str, nid ++ '+' :: A ++ '+' :: t ++ '+' :: T =
      nid ++ '+' :: (A ++ '+' :: (t ++ '+' :: T)) := by
    intro nid A T
    simp only [List.append_assoc, List.cons_append]
  unfold Generate urn
  dsimp only
  rw [hassoc]
  cases only generateAuthorityChar (lower a) with
  | false => simp
  | true =>
    cases only generateTypeChar t with
    | false => simp
    | true =>
      cases only generateIdChar i with
      | false => simp
      | true => simp [eq_comm]

theorem not_mem_of_only {c : Char} (h : only cls s = true) (hc : cls c = false) (hn : c ≠ '\n') : c ∉ s := by
  intro hs
  rcases (mem_of_only h).2 c hs with h | h
  · rw [hc] at h
    cases h
  · exact hn h

section

variable {W : WordClass} {A t T : Str}

theorem matchUrn_urn (hA : '+' ∉ A) (ht : '+' ∉ t) : matchUrn W (urn A t T) =
    (matchAuthority false false A && (t ≠ [] && t.all W.mem) &&
      beforeEnd (fun id => id ≠ [] && matchId id) T) := by
  have hnid : matchNid "urn:publicid:IDN".toList = true := by decide
  unfold matchUrn urn
  rw [cut_append (by decide)]
  dsimp only
  rw [cut_append hA]
  dsimp only
  rw [cut_append ht]
  dsimp only
  rw [hnid, Bool.true_and]

theorem urnParts_urn (hA : '+' ∉ A) (ht : '+' ∉ t) (hn : '\n' ∉ T) (hA0 : A ≠ []) (ht0 : t ≠ [])
    (hT0 : T ≠ []) : urnParts (urn A t T) = some (A, t, T) := by
  unfold urnParts urn
  rw [cut_append (by decide)]
  simp only [Option.bind_eq_bind, Option.bind_some]
  rw [cut_append hA]
  simp only [Option.bind_some]
  rw [cut_append ht]
  simp only [Option.bind_some]
  rw [line_of_not_mem hn, Option.bind_some, if_neg (by simp [hA0, ht0, hT0])]

end

theorem matchId_coded {T : Str} (h : Coded codes T) : matchId T = T.all fun c => c = '%' || idChar c := by
  induction h with
  | nil => rfl
  | @char x s hx _ ih =>
    have hrec : matchId (x :: s) = (idChar x && matchId s) := by
      rw [matchId]
      rintro a b s' ⟨⟩
      exact absurd rfl hx
    rw [hrec, ih, List.all_cons, decide_eq_false hx, Bool.false_or]
  | @code a b s hab _ ih =>
    have hcode : isHex a = true ∧ isHex b = true ∧ idChar a = true ∧ idChar b = true := by
      revert hab
      unfold codes
      simp only [List.mem_cons, Prod.mk.injEq, List.not_mem_nil, or_false]
      rintro (⟨rfl, rfl⟩ | ⟨rfl, rfl⟩ | ⟨rfl, rfl⟩ | ⟨rfl, rfl⟩ | ⟨rfl, rfl⟩ | ⟨rfl, rfl⟩ |
        ⟨rfl, rfl⟩ | ⟨rfl, rfl⟩) <;> decide
    rw [matchId, ih, hcode.1, hcode.2.1]
    simp [hcode.2.2.1, hcode.2.2.2]

/-! ## Section 4: White space -/

theorem mem_collapse {prev : Bool} {x : Char} (h : x ∈ collapse prev s) :
    x = ' ' ∨ (x ∈ s ∧ isSpace x = false) := by
  induction s generalizing prev with
  | nil => cases h
  | cons c s ih =>
    have hrec : ∀ {prev}, x ∈ collapse prev s → x = ' ' ∨ (x ∈ c :: s ∧ isSpace x = false) :=
      fun h => (ih h).imp_right fun h => ⟨List.mem_cons_of_mem _ h.1, h.2⟩
    rw [collapse] at h
    split at h
    · split at h
      · exact hrec h
      · rcases List.mem_cons.mp h with h | h
        · exact Or.inl h
        · exact hrec h
    · rename_i hc
      rcases List.mem_cons.mp h with rfl | h
      · exact Or.inr ⟨List.mem_cons_self, by simpa using hc⟩
      · exact hrec h

theorem mem_normalSpace {str : Str} {x : Char} (h : x ∈ normalSpace str) :
    x = ' ' ∨ (x ∈ str ∧ isSpace x = false) := by
  refine (mem_collapse h).imp_right fun ⟨h, hx⟩ => ⟨?_, hx⟩
  exact (List.dropWhile_suffix _).subset ((List.rdropWhile_prefix _ _).subset h)

theorem collapse_of_no_space {prev : Bool} (h : ∀ c ∈ s, isSpace c = false) : collapse prev s = s := by
  induction s generalizing prev with
  | nil => rfl
  | cons c s ih =>
    rw [collapse, if_neg (by simp [h c List.mem_cons_self]), ih fun x hx => h x (List.mem_cons_of_mem _ hx)]

theorem normalSpace_of_no_space {str : Str} (h : ∀ c ∈ str, isSpace c = false) : normalSpace str = str := by
  have hfirst : str.dropWhile isSpace = str := by
    cases str with
    | nil => rfl
    | cons c s => rw [List.dropWhile_cons, if_neg (by simp [h c List.mem_cons_self])]
  have hlast : str.rdropWhile isSpace = str := by
    rw [List.rdropWhile_eq_self_iff]
    intro hne
    rw [h _ (List.getLast_mem hne)]
    exact Bool.false_ne_true
  unfold normalSpace
  dsimp only
  rw [hfirst, hlast, collapse_of_no_space h]

theorem newline_not_mem_transcribe (str : Str) : '\n' ∉ Transcribe str := by
  intro h
  rcases mem_transcribe h with ⟨h, -⟩ | h | h
  · rcases mem_normalSpace h with h | ⟨-, h⟩
    · exact absurd h (by decide)
    · exact absurd h (by decide)
  · exact absurd h (by decide)
  · exact absurd h (by decide)

/-- An id is matched if it has neither of the two signs that transcription brings in. -/
theorem matchId_transcribe {i : Str} (hi : only generateIdChar i = true) :
    matchId (Transcribe i) = true ↔ ' ' ∉ normalSpace i ∧ ¬ [':', ':'] <:+: normalSpace i := by
  rw [matchId_coded (coded_transcribe i), List.all_eq_true, ← plus_mem_transcribe, ← semicolon_mem_transcribe]
  constructor
  · intro h
    refine ⟨fun hx => ?_, fun hx => ?_⟩
    · exact absurd (h _ hx) (by decide)
    · exact absurd (h _ hx) (by decide)
  · rintro ⟨hplus, hsemi⟩ x hx
    rcases mem_transcribe hx with ⟨hi', hesc⟩ | h | h
    · rcases mem_normalSpace hi' with rfl | ⟨hmem, hspace⟩
      · exact absurd List.mem_cons_self hesc
      have hx : generateIdChar x = true := by
        refine ((mem_of_only hi).2 x hmem).resolve_right ?_
        rintro rfl
        exact absurd hspace (by decide)
      unfold escaped at hesc
      unfold isSpace at hspace
      unfold generateIdChar formatPageNumber at hx
      unfold idChar
      simp only [List.mem_cons, List.not_mem_nil, or_false, not_or, decide_eq_false_iff_not,
        Bool.or_eq_true, decide_eq_true_eq] at hesc hspace hx ⊢
      have hzero : x = '0' → alnum x = true := by
        rintro rfl
        decide
      grind
    · revert h
      unfold escapeChars
      simp only [List.mem_cons, List.not_mem_nil, or_false]
      rintro (rfl | rfl | rfl | rfl | rfl | rfl | rfl | rfl) <;> decide
    · simp only [List.mem_cons, List.not_mem_nil, or_false] at h
      rcases h with rfl | rfl | rfl
      · exact absurd hx hplus
      · exact absurd hx hsemi
      · decide

/-! ## Section 5: Generated URNs -/

/-- An authority, a type and an id that fit into a URN. -/
def Fits (W : WordClass) (authority type id : Str) : Prop :=
  matchAuthority false false authority = true ∧ (∀ c ∈ type, W.mem c = true) ∧
    id ≠ [] ∧ ' ' ∉ id ∧ ¬ [':', ':'] <:+: id

instance (W : WordClass) (authority type id : Str) : Decidable (Fits W authority type id) :=
  inferInstanceAs (Decidable (_ ∧ _ ∧ _ ∧ _ ∧ _))

section

variable {W : WordClass} {a t i s : Str}

theorem percent_not_mem_urn {A : Str} (hA : '%' ∉ A) (ht : '%' ∉ t) :
    '%' ∉ "urn:publicid:IDN".toList ++ '+' :: (A ++ '+' :: (t ++ ['+'])) := by
  have hnid : '%' ∉ "urn:publicid:IDN".toList := by decide
  simp only [List.mem_append, List.mem_cons, List.not_mem_nil, hnid, hA, ht]
  decide

theorem unescape_generate (h : Generate a t i = some s) :
    s = urn (lower a) t (Transcribe i) ∧ Unescape s = s ∧ ¬ ['%', '0', '0'] <:+: s := by
  obtain ⟨ha, ht, -, rfl⟩ := generate_eq_some.mp h
  have hp := percent_not_mem_urn (not_mem_of_only (c := '%') ha (by decide) (by decide))
    (not_mem_of_only (c := '%') ht (by decide) (by decide))
  have hassoc : ∀ nid A T : Str, nid ++ '+' :: (A ++ '+' :: (t ++ '+' :: T)) =
      (nid ++ '+' :: (A ++ '+' :: (t ++ ['+']))) ++ T := by
    intro nid A T
    simp only [List.append_assoc, List.cons_append, List.nil_append]
  have hurn : urn (lower a) t (Transcribe i) =
      ("urn:publicid:IDN".toList ++ '+' :: (lower a ++ '+' :: (t ++ ['+']))) ++ Transcribe i :=
    hassoc _ _ _
  have hcoded := coded_transcribe i
  refine ⟨rfl, ?_, ?_⟩
  · rw [hurn]
    exact Unescape_coded hp hcoded (newline_not_mem_transcribe i)
  · rw [hurn]
    exact ((coded_of_not_mem hp).append hcoded).free_of_code (by decide) (by decide)

theorem isValid_generate (h : Generate a t i = some s) :
    IsValid W s = true ↔ Fits W (lower a) t (normalSpace i) := by
  obtain ⟨hs, hun, hzero⟩ := unescape_generate h
  obtain ⟨ha, ht, hi, -⟩ := generate_eq_some.mp h
  have hn := newline_not_mem_transcribe i
  unfold IsValid
  rw [if_neg hzero, hun, hs, matchUrn_urn (not_mem_of_only ha (by decide) (by decide))
    (not_mem_of_only ht (by decide) (by decide)), beforeEnd_of_not_mem hn]
  simp only [Bool.and_eq_true, decide_eq_true_eq, List.all_eq_true]
  rw [matchId_transcribe hi, ne_eq (Transcribe i), transcribe_eq_nil]
  unfold Fits
  constructor
  · rintro ⟨⟨hauth, -, htype⟩, hid⟩
    exact ⟨hauth, htype, hid⟩
  · rintro ⟨hauth, htype, hid⟩
    exact ⟨⟨hauth, (mem_of_only ht).1, htype⟩, hid⟩

theorem parse_generate (h : Generate a t i = some s) (hvalid : IsValid W s = true) :
    Parse W s = some (lower a, t, normalSpace i) := by
  obtain ⟨hs, hun, -⟩ := unescape_generate h
  obtain ⟨ha, ht, -, -⟩ := generate_eq_some.mp h
  obtain ⟨-, -, hid, -⟩ := (isValid_generate h).mp hvalid
  unfold Parse
  rw [if_pos hvalid, hun, hs, urnParts_urn (not_mem_of_only ha (by decide) (by decide))
    (not_mem_of_only ht (by decide) (by decide)) (newline_not_mem_transcribe i) (mem_of_only ha).1
    (mem_of_only ht).1 (transcribe_eq_nil.not.mpr hid), Option.map_some, untranscribe_transcribe]

theorem isValid_of_parse {p : Str × Str × Str} (h : Parse W s = some p) : IsValid W s = true := by
  unfold Parse at h
  split at h
  · assumption
  · cases h

theorem parse_generate_iff (h : Generate a t i = some s) :
    Parse W s = some (lower a, t, normalSpace i) ↔ Fits W (lower a) t (normalSpace i) :=
  ⟨fun hp => (isValid_generate h).mp (isValid_of_parse hp),
    fun hf => parse_generate h ((isValid_generate h).mpr hf)⟩

/-! ## Section 6: Images and interfaces -/

def imageId (pid os : Str) (vers : Option Str) : Str :=
  pid ++ "//".toList ++ os ++ vers.elim [] fun vers => "//".toList ++ vers

def interfaceId (node interface : Str) : Str := node ++ "//".toList ++ interface

/-- An id without white space and double colons. -/
def Solid (id : Str) : Prop := (∀ c ∈ id, isSpace c = false) ∧ ¬ [':', ':'] <:+: id

instance (id : Str) : Decidable (Solid id) := inferInstanceAs (Decidable (_ ∧ _))

theorem generateImage_eq (a pid os : Str) (vers : Option Str) :
    GenerateImage a pid os vers = Generate a "image".toList (imageId pid os vers) := by
  cases vers with
  | none =>
    unfold GenerateImage imageId
    dsimp only [Option.elim]
    rw [List.append_nil]
  | some vers =>
    unfold GenerateImage imageId
    dsimp only [Option.elim]
    rw [List.append_assoc (pid ++ "//".toList ++ os)]

theorem word_of_alnum (W : WordClass) {s : Str} (h : ∀ c ∈ s, c.toNat < 128 ∧ alnum c = true) :
    ∀ c ∈ s, W.mem c = true := by
  intro c hc
  rw [W.ascii c (h c hc).1, (h c hc).2, Bool.true_or]

theorem fits_iff {type : Str} (htype : ∀ c ∈ type, c.toNat < 128 ∧ alnum c = true)
    {id : Str} (hid : id ≠ []) (hspace : ∀ c ∈ id, isSpace c = false) :
    Fits W a type (normalSpace id) ↔ matchAuthority false false a = true ∧ Solid id := by
  rw [normalSpace_of_no_space hspace]
  have hblank : ' ' ∉ id := fun h => absurd (hspace _ h) (by decide)
  unfold Fits Solid
  exact ⟨fun h => ⟨h.1, hspace, h.2.2.2.2⟩,
    fun h => ⟨h.1, word_of_alnum W htype, hid, hblank, h.2.2⟩⟩

theorem no_space_of_fits {type id : Str} (h : Fits W a type (normalSpace id)) :
    ∀ c ∈ normalSpace id, isSpace c = false := by
  intro c hc
  rcases mem_normalSpace hc with rfl | ⟨-, h⟩
  · exact absurd hc h.2.2.2.1
  · exact h

/-- What an image pattern captures. -/
theorem matchImageHere_eq_some {s p o : Str} {v : Option Str} (h : matchImageHere s = some (p, o, v)) :
    p ≠ [] ∧ o ≠ [] ∧ (∀ v', v = some v' → v' ≠ [] ∧ ∀ c ∈ v', inRange '0' '9' c = true) ∧
      (∀ c ∈ p, c ∈ s) ∧ ∀ c ∈ o, c ∈ s := by
  unfold matchImageHere at h
  rw [List.span_eq_takeWhile_dropWhile] at h
  have hsub : ∀ c ∈ s.takeWhile (· ≠ '/'), c ∈ s := (List.takeWhile_prefix _).subset
  split at h
  swap
  · cases h
  rename_i ospid rest heq
  obtain ⟨rfl, hrest⟩ := Prod.mk.inj heq
  have hrest : ∀ c ∈ rest, c ∈ s := by
    intro c hc
    refine (List.dropWhile_suffix (· ≠ '/')).subset ?_
    rw [hrest]
    simp [hc]
  rw [List.span_eq_takeWhile_dropWhile] at h
  have hsub' : ∀ c ∈ rest.takeWhile (· ≠ '/'), c ∈ s :=
    fun c hc => hrest c ((List.takeWhile_prefix _).subset hc)
  dsimp only at h
  split at h
  · cases h
  rename_i hne
  rw [not_or] at hne
  split at h
  · rename_i s' _
    simp only [Option.some.injEq, Prod.mk.injEq] at h
    obtain ⟨rfl, rfl, rfl⟩ := h
    refine ⟨hne.1, hne.2, ?_, hsub, hsub'⟩
    intro v' hv'
    split at hv'
    · cases hv'
    · rename_i hdigits
      cases hv'
      exact ⟨hdigits, fun c hc => List.mem_takeWhile_imp hc⟩
  · simp only [Option.some.injEq, Prod.mk.injEq] at h
    obtain ⟨rfl, rfl, rfl⟩ := h
    exact ⟨hne.1, hne.2, by simp, hsub, hsub'⟩

theorem matchImage_eq_some {s p o : Str} {v : Option Str} (h : matchImage s = some (p, o, v)) :
    p ≠ [] ∧ o ≠ [] ∧ (∀ v', v = some v' → v' ≠ [] ∧ ∀ c ∈ v', inRange '0' '9' c = true) ∧
      (∀ c ∈ p, c ∈ s) ∧ ∀ c ∈ o, c ∈ s := by
  induction s with
  | nil => cases h
  | cons c s ih =>
    rw [matchImage] at h
    rcases Option.or_eq_some_iff.mp h with h | ⟨-, h⟩
    · exact matchImageHere_eq_some h
    · obtain ⟨hp, ho, hv, hsub, hsub'⟩ := ih h
      exact ⟨hp, ho, hv, fun c hc => List.mem_cons_of_mem _ (hsub c hc),
        fun c hc => List.mem_cons_of_mem _ (hsub' c hc)⟩

theorem matchImage_imageId {pid os : Str} {vers : Option Str} (hp : '/' ∉ pid) (ho : '/' ∉ os)
    (hp0 : pid ≠ []) (ho0 : os ≠ []) (hv : ∀ v, vers = some v → v ≠ [] ∧ ∀ c ∈ v, inRange '0' '9' c = true) :
    matchImage (imageId pid os vers) = some (pid, os, vers) := by
  have hhere : matchImageHere (imageId pid os vers) = some (pid, os, vers) := by
    unfold matchImageHere imageId
    have hslash : ∀ r : Str, pid ++ "//".toList ++ os ++ r = pid ++ '/' :: '/' :: (os ++ r) := by
      intro r
      rw [List.append_assoc, List.append_assoc]
      rfl
    rw [hslash, span_append hp]
    cases vers with
    | none =>
      have hspan := span_of_not_mem ho
      simp only [Option.elim, List.append_nil, hspan]
      rw [if_neg (by simp [hp0, ho0])]
    | some v =>
      obtain ⟨hv0, hdigits⟩ := hv v rfl
      have hspan : (os ++ ("//".toList ++ v)).span (· ≠ '/') = (os, '/' :: '/' :: v) :=
        span_append ho ('/' :: v)
      simp only [Option.elim, hspan]
      rw [if_neg (by simp [hp0, ho0]), List.takeWhile_eq_self_iff.mpr hdigits, if_neg hv0]
  have hne : imageId pid os vers ≠ [] := by
    unfold imageId
    simp [hp0]
  obtain ⟨c, s, hcs⟩ := List.exists_cons_of_ne_nil hne
  rw [hcs] at hhere ⊢
  rw [matchImage, hhere, Option.some_or]

/-- Images are parsed to what they have been generated of exactly if nothing of it is empty and the
    version is a number, the authority is one of URNs, and the id has no white space and no double colon. -/
theorem parseImage_generateImage {pid os : Str} {vers : Option Str}
    (h : GenerateImage a pid os vers = some s) (hp : '/' ∉ pid) (ho : '/' ∉ os) :
    ParseImage W s = some (lower a, pid, os, vers) ↔
      matchAuthority false false (lower a) = true ∧ Solid (imageId pid os vers) ∧ pid ≠ [] ∧ os ≠ [] ∧
        ∀ v, vers = some v → v ≠ [] ∧ ∀ c ∈ v, inRange '0' '9' c = true := by
  rw [generateImage_eq] at h
  have htype : ∀ c ∈ "image".toList, c.toNat < 128 ∧ alnum c = true := by decide
  unfold ParseImage
  constructor
  · intro himage
    cases hparse : Parse W s with
    | none =>
      rw [hparse] at himage
      cases himage
    | some q =>
      have hvalid := isValid_of_parse hparse
      have hfits := (isValid_generate h).mp hvalid
      rw [parse_generate h hvalid] at himage
      dsimp only at himage
      rw [if_neg (not_not.mpr rfl)] at himage
      obtain ⟨⟨p, o, v⟩, hmatch, heq⟩ := Option.map_eq_some_iff.mp himage
      simp only [Prod.mk.injEq, true_and] at heq
      rw [heq.1, heq.2.1, heq.2.2] at hmatch
      obtain ⟨hp0, ho0, hv, hpid, hos⟩ := matchImage_eq_some hmatch
      have hspace := no_space_of_fits hfits
      have hid : ∀ c ∈ imageId pid os vers, isSpace c = false := by
        intro c hc
        unfold imageId at hc
        rw [List.mem_append, List.mem_append, List.mem_append] at hc
        have hslash : ∀ c ∈ "//".toList, isSpace c = false := by decide
        rcases hc with ((hc | hc) | hc) | hc
        · exact hspace c (hpid c hc)
        · exact hslash c hc
        · exact hspace c (hos c hc)
        · cases vers with
          | none => cases hc
          | some v =>
            rcases List.mem_append.mp hc with hc | hc
            · exact hslash c hc
            · have hdigit := (hv v rfl).2 c hc
              rw [Bool.eq_false_iff]
              intro hblank
              unfold isSpace at hblank
              simp only [List.mem_cons, List.not_mem_nil, or_false, decide_eq_true_eq] at hblank
              rcases hblank with rfl | rfl | rfl | rfl <;> exact absurd hdigit (by decide)
      have hne : imageId pid os vers ≠ [] := by
        unfold imageId
        simp
      obtain ⟨hauth, hsolid⟩ := (fits_iff htype hne hid).mp hfits
      exact ⟨hauth, hsolid, hp0, ho0, hv⟩
  · rintro ⟨hauth, hsolid, hp0, ho0, hv⟩
    have hne : imageId pid os vers ≠ [] := by
      unfold imageId
      simp [hp0]
    have hfits := (fits_iff (W := W) htype hne hsolid.1).mpr ⟨hauth, hsolid⟩
    rw [parse_generate h ((isValid_generate h).mpr hfits)]
    dsimp only
    rw [if_neg (not_not.mpr rfl), normalSpace_of_no_space hsolid.1, matchImage_imageId hp ho hp0 ho0 hv]
    rfl

theorem lastSlashes_eq_some {s p q : Str} (h : lastSlashes s = some (p, q)) :
    (∀ c ∈ p, c ∈ s) ∧ ∀ c ∈ q, c ∈ s := by
  induction s generalizing p with
  | nil => cases h
  | cons c s ih =>
    rw [lastSlashes] at h
    split at h
    · rename_i r hr
      cases h
      obtain ⟨hp, hq⟩ := ih hr
      refine ⟨?_, fun x hx => List.mem_cons_of_mem _ (hq x hx)⟩
      intro x hx
      rcases List.mem_cons.mp hx with rfl | hx
      · exact List.mem_cons_self
      · exact List.mem_cons_of_mem _ (hp x hx)
    · split at h
      · cases h
        exact ⟨by simp, fun x hx => List.mem_cons_of_mem _ (List.mem_of_mem_tail hx)⟩
      · cases h

theorem lastSlashes_of_not_mem {q : Str} (hq : '/' ∉ q) : lastSlashes q = none := by
  induction q with
  | nil => rfl
  | cons c q ih =>
    rw [List.mem_cons, not_or] at hq
    rw [lastSlashes, ih hq.2]
    exact if_neg fun h => hq.1 h.1.symm

theorem lastSlashes_append {q : Str} (hq : '/' ∉ q) (p : Str) :
    lastSlashes (p ++ '/' :: '/' :: q) = some (p, q) := by
  induction p with
  | nil =>
    have hone : lastSlashes ('/' :: q) = none := by
      rw [lastSlashes, lastSlashes_of_not_mem hq]
      refine if_neg fun h => hq ?_
      exact List.mem_of_head? h.2
    rw [List.nil_append, lastSlashes, hone]
    rfl
  | cons c p ih => rw [List.cons_append, lastSlashes, ih]

/-- Interfaces are parsed to what they have been generated of exactly if the authority is one of URNs and
    the id has no white space and no double colon. -/
theorem parseInterface_generateInterface {node interface : Str}
    (h : GenerateInterface a node interface = some s) (hi : '/' ∉ interface) :
    ParseInterface W s = some (lower a, node, interface) ↔
      matchAuthority false false (lower a) = true ∧ Solid (interfaceId node interface) := by
  have h : Generate a "interface".toList (interfaceId node interface) = some s := h
  have htype : ∀ c ∈ "interface".toList, c.toNat < 128 ∧ alnum c = true := by decide
  have hne : interfaceId node interface ≠ [] := by
    unfold interfaceId
    simp
  unfold ParseInterface
  constructor
  · intro hinterface
    cases hparse : Parse W s with
    | none =>
      rw [hparse] at hinterface
      cases hinterface
    | some q =>
      have hvalid := isValid_of_parse hparse
      have hfits := (isValid_generate h).mp hvalid
      rw [parse_generate h hvalid] at hinterface
      dsimp only at hinterface
      rw [if_neg (not_not.mpr rfl)] at hinterface
      obtain ⟨⟨p, q⟩, hlast, heq⟩ := Option.map_eq_some_iff.mp hinterface
      simp only [Prod.mk.injEq, true_and] at heq
      rw [heq.1, heq.2] at hlast
      obtain ⟨hnode, hinterface⟩ := lastSlashes_eq_some hlast
      have hspace := no_space_of_fits hfits
      have hid : ∀ c ∈ interfaceId node interface, isSpace c = false := by
        intro c hc
        unfold interfaceId at hc
        rw [List.mem_append, List.mem_append] at hc
        have hslash : ∀ c ∈ "//".toList, isSpace c = false := by decide
        rcases hc with (hc | hc) | hc
        · exact hspace c (hnode c hc)
        · exact hslash c hc
        · exact hspace c (hinterface c hc)
      exact (fits_iff htype hne hid).mp hfits
  · rintro ⟨hauth, hsolid⟩
    have hfits := (fits_iff (W := W) htype hne hsolid.1).mpr ⟨hauth, hsolid⟩
    have hlast : lastSlashes (interfaceId node interface) = some (node, interface) := by
      unfold interfaceId
      rw [List.append_assoc]
      exact lastSlashes_append hi node
    rw [parse_generate h ((isValid_generate h).mpr hfits)]
    dsimp only
    rw [if_neg (not_not.mpr rfl), normalSpace_of_no_space hsolid.1, hlast]
    rfl

end

/-! ## Section 7: The round trip -/

/-- A generated URN is valid and is parsed to the authority in lower case, the type and the id with its
    white space normalised exactly if these fit into a URN. For ids of images and interfaces whose parts
    have no slash it is parsed to these parts exactly if the id has no white space and no double colon, and
    of an image nothing is empty and the version is a number. -/
theorem generate_roundTrip (W : WordClass) : (∀ a t i s, Generate a t i = some s →
      (IsValid W s = true ∧ Parse W s = some (lower a, t, normalSpace i) ↔ Fits W (lower a) t (normalSpace i))) ∧
    (∀ a pid os vers s, GenerateImage a pid os vers = some s → '/' ∉ pid → '/' ∉ os →
      (∀ v, vers = some v → '/' ∉ v) →
      (ParseImage W s = some (lower a, pid, os, vers) ↔
        matchAuthority false false (lower a) = true ∧ Solid (imageId pid os vers) ∧ pid ≠ [] ∧ os ≠ [] ∧
          ∀ v, vers = some v → v ≠ [] ∧ ∀ c ∈ v, inRange '0' '9' c = true)) ∧
    ∀ a node interface s, GenerateInterface a node interface = some s → '/' ∉ node → '/' ∉ interface →
      (ParseInterface W s = some (lower a, node, interface) ↔
        matchAuthority false false (lower a) = true ∧ Solid (interfaceId node interface)) := by
  refine ⟨?_, ?_, ?_⟩
  · intro a t i s h
    rw [parse_generate_iff h, isValid_generate h, and_self_iff]
  · intro a pid os vers s h hp ho _
    exact parseImage_generateImage h hp ho
  · intro a node interface s h _ hi
    exact parseInterface_generateInterface h hi

def asciiWords : WordClass where
  mem c := alnum c || c = '_'
  ascii _ _ := rfl

theorem generate_roundTrip_emulab : Parse asciiWords "urn:publicid:IDN+emulab.net+node+pc12".toList =
      some ("emulab.net".toList, "node".toList, "pc12".toList) ∧
    ParseImage asciiWords "urn:publicid:IDN+emulab.net+image+emulab-ops:FBSD:2".toList =
      some ("emulab.net".toList, "emulab-ops".toList, "FBSD".toList, some "2".toList) ∧
    ParseInterface asciiWords "urn:publicid:IDN+emulab.net+interface+pc1:eth0".toList =
      some ("emulab.net".toList, "pc1".toList, "eth0".toList) := by
  obtain ⟨hid, himage, hinterface⟩ := generate_roundTrip asciiWords
  refine ⟨?_, ?_, ?_⟩
  · exact ((hid "Emulab.net".toList "node".toList " pc12 ".toList _ (by decide)).mpr (by decide)).2
  · exact (himage "Emulab.net".toList "emulab-ops".toList "FBSD".toList (some "2".toList) _ (by decide)
      (by decide) (by decide) (by simp)).mpr (by simp; decide)
  · exact (hinterface "Emulab.net".toList "pc1".toList "eth0".toList _ (by decide) (by decide)
      (by decide)).mpr (by decide)

theorem spaced_id_not_valid : ¬ ∀ (W : WordClass) (a t i s : Str), Generate a t i = some s →
    IsValid W s = true ∧ Parse W s = some (lower a, t, normalSpace i) := by
  intro h
  have hvalid := (h asciiWords "emulab.net".toList "user".toList "some user".toList
    "urn:publicid:IDN+emulab.net+user+some+user".toList (by decide)).1
  exact absurd hvalid (by decide)

end Emulab.Protogeni
