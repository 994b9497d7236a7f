import Emulab.Protogeni.Hrn

/-! # Transcription and its inverse

  The transcription of an id is read back, and what its characters are is found
  out from what it has been made of.
-/

namespace Emulab.Protogeni

open Escape

/-! ## Section 1: The round trip -/

/-- The codes of the escapes, the last one first. -/
def codes : List (Char × Char) :=
  [('2', 'F'), ('3', 'A'), ('3', 'F'), ('3', 'B'), ('2', 'B'), ('2', '7'), ('2', '3'), ('2', '5')]

/-- The characters that are escaped first. -/
def escapes (s : Str) : Str :=
  escape '?' '3' 'F' (escape ';' '3' 'B' (escape '+' '2' 'B'
    (escape '\'' '2' '7' (escape '#' '2' '3' (escape '%' '2' '5' s)))))

/-- The separators that are written anew. -/
def separators (s : Str) : Str :=
  pair '/' ':' (escape ':' '3' 'A' (pair ':' ';' (replace ' ' '+' s)))

theorem transcribe_eq (str : Str) :
    Transcribe str = escape '/' '2' 'F' (separators (escapes (normalSpace str))) := rfl

section

variable {s : Str}

theorem coded_escape_hash (s : Str) : Coded (codes.drop 6) (escape '#' '2' '3' (escape '%' '2' '5' s)) :=
  (coded_escape_percent s).escape (by decide)

theorem coded_escape_quote (s : Str) : Coded (codes.drop 5)
    (escape '\'' '2' '7' (escape '#' '2' '3' (escape '%' '2' '5' s))) :=
  (coded_escape_hash s).escape (by decide)

theorem coded_escape_plus (s : Str) : Coded (codes.drop 4)
    (escape '+' '2' 'B' (escape '\'' '2' '7' (escape '#' '2' '3' (escape '%' '2' '5' s)))) :=
  (coded_escape_quote s).escape (by decide)

theorem coded_escape_semicolon (s : Str) : Coded (codes.drop 3) (escape ';' '3' 'B'
    (escape '+' '2' 'B' (escape '\'' '2' '7' (escape '#' '2' '3' (escape '%' '2' '5' s))))) :=
  (coded_escape_plus s).escape (by decide)

theorem coded_escapes (s : Str) : Coded (codes.drop 2) (escapes s) :=
  (coded_escape_semicolon s).escape (by decide)

theorem plus_not_mem_escapes (s : Str) : '+' ∉ escapes s :=
  not_mem_escape (.inl (not_mem_escape (.inl (not_mem_escape (.inr rfl) (by decide))) (by decide))) (by decide)

theorem semicolon_not_mem_escapes (s : Str) : ';' ∉ escapes s :=
  not_mem_escape (.inl (not_mem_escape (.inr rfl) (by decide))) (by decide)

theorem unescapes_escapes (s : Str) :
    unescape (code '2' '5') '%' (unescape (code '2' '3') '#' (unescape (code '2' '7') '\''
      (unescape (code '2' 'B') '+' (unescape (code '3' 'B') ';' (unescape (code '3' 'F') '?' (escapes s)))))) =
      s := by
  unfold escapes
  simp (disch := decide) only [unescape_escape (coded_escape_semicolon s),
    unescape_escape (coded_escape_plus s), unescape_escape (coded_escape_quote s),
    unescape_escape (coded_escape_hash s), unescape_escape (coded_escape_percent s),
    unescape_escape_percent]

theorem coded_semicolons (s : Str) : Coded (codes.drop 2) (pair ':' ';' (replace ' ' '+' (escapes s))) :=
  ((coded_escapes s).replace (by decide) (by decide)).pair (by decide) (by decide)

theorem coded_separators (s : Str) : Coded (codes.drop 1) (separators (escapes s)) :=
  ((coded_semicolons s).escape (by decide)).pair (by decide) (by decide)

theorem coded_transcribe (str : Str) : Coded codes (Transcribe str) :=
  (coded_separators (normalSpace str)).escape (by decide)

theorem untranscribe_transcribe (str : Str) : Untranscribe (Transcribe str) = normalSpace str := by
  rw [transcribe_eq]
  generalize normalSpace str = s
  have hspace : ';' ∉ replace ' ' '+' (escapes s) := by
    intro h
    rcases mem_replace h with ⟨h, -⟩ | h
    · exact semicolon_not_mem_escapes s h
    · exact absurd h (by decide)
  have hcolon : ':' ∉ escape ':' '3' 'A' (pair ':' ';' (replace ' ' '+' (escapes s))) :=
    not_mem_escape (.inr rfl) (by decide)
  unfold Untranscribe
  dsimp only
  rw [unescape_escape (coded_separators s) (by decide) (by decide) (by decide) (by decide)]
  unfold separators
  rw [unpair_pair hcolon, unescape_escape (coded_semicolons s) (by decide) (by decide) (by decide) (by decide),
    unpair_pair hspace, replace_replace (plus_not_mem_escapes s), unescapes_escapes]

/-! ## Section 2: The characters of a transcription -/

/-- The characters that are escaped first. -/
def escaped : Str := ['?', ';', '+', '\'', '#', '%']

/-- The characters that escapes are made of. -/
def escapeChars : Str := ['%', '2', '3', '5', '7', 'A', 'B', 'F']

theorem mem_escape_of {c hi lo x : Char} {s s' kept : Str} (hhi : hi ∈ escapeChars)
    (hlo : lo ∈ escapeChars) (h : x ∈ escape c hi lo s')
    (hs' : x ∈ s' → (x ∈ s ∧ x ∉ kept) ∨ x ∈ escapeChars) : (x ∈ s ∧ x ∉ c :: kept) ∨ x ∈ escapeChars := by
  rcases mem_escape h with ⟨hx, hc⟩ | rfl | rfl | rfl
  · refine (hs' hx).imp_left fun h => ⟨h.1, ?_⟩
    rw [List.mem_cons, not_or]
    exact ⟨hc, h.2⟩
  · exact Or.inr (by decide)
  · exact Or.inr hhi
  · exact Or.inr hlo

theorem mem_escapes {x : Char} (h : x ∈ escapes s) : (x ∈ s ∧ x ∉ escaped) ∨ x ∈ escapeChars :=
  mem_escape_of (by decide) (by decide) h fun h =>
    mem_escape_of (by decide) (by decide) h fun h =>
    mem_escape_of (by decide) (by decide) h fun h =>
    mem_escape_of (by decide) (by decide) h fun h =>
    mem_escape_of (by decide) (by decide) h fun h =>
    mem_escape_of (by decide) (by decide) h fun h => Or.inl ⟨h, List.not_mem_nil⟩

/-- Where the characters of a transcription come from. -/
theorem mem_transcribe {str : Str} {x : Char} (h : x ∈ Transcribe str) :
    (x ∈ normalSpace str ∧ x ∉ ' ' :: escaped) ∨ x ∈ escapeChars ∨ x ∈ ['+', ';', ':'] := by
  rw [transcribe_eq] at h
  have hother : ∀ {hi lo : Char}, hi ∈ escapeChars → lo ∈ escapeChars → x = '%' ∨ x = hi ∨ x = lo →
      x ∈ escapeChars := by
    rintro hi lo hhi hlo (rfl | rfl | rfl)
    · decide
    · exact hhi
    · exact hlo
  rcases mem_escape h with ⟨h, -⟩ | h
  swap
  · exact Or.inr (Or.inl (hother (by decide) (by decide) h))
  rcases mem_pair h with h | rfl
  swap
  · exact Or.inr (Or.inr (by decide))
  rcases mem_escape h with ⟨h, -⟩ | h
  swap
  · exact Or.inr (Or.inl (hother (by decide) (by decide) h))
  rcases mem_pair h with h | rfl
  swap
  · exact Or.inr (Or.inr (by decide))
  rcases mem_replace h with ⟨h, hspace⟩ | rfl
  swap
  · exact Or.inr (Or.inr (by decide))
  rcases mem_escapes h with ⟨h, hnot⟩ | h
  · refine Or.inl ⟨h, ?_⟩
    rw [List.mem_cons, not_or]
    exact ⟨hspace, hnot⟩
  · exact Or.inr (Or.inl h)

theorem plus_mem_transcribe {str : Str} : '+' ∈ Transcribe str ↔ ' ' ∈ normalSpace str := by
  rw [transcribe_eq, mem_escape_iff_of_ne (by decide) (by decide)]
  unfold separators
  rw [mem_pair_iff_of_ne (by decide) (by decide), mem_escape_iff_of_ne (by decide) (by decide),
    mem_pair_iff_of_ne (by decide) (by decide)]
  have hspace : ' ' ∈ escapes (normalSpace str) ↔ ' ' ∈ normalSpace str := by
    unfold escapes
    simp (disch := decide) only [mem_escape_iff_of_ne]
  rw [← hspace]
  constructor
  · intro h
    obtain ⟨x, hx, heq⟩ := List.mem_map.mp h
    split at heq
    · rename_i hs
      exact hs ▸ hx
    · exact absurd (heq ▸ hx) (plus_not_mem_escapes _)
  · intro h
    exact List.mem_map.mpr ⟨' ', h, rfl⟩

theorem semicolon_mem_transcribe {str : Str} : ';' ∈ Transcribe str ↔ [':', ':'] <:+: normalSpace str := by
  rw [transcribe_eq, mem_escape_iff_of_ne (by decide) (by decide)]
  unfold separators
  have hnew : ';' ∉ replace ' ' '+' (escapes (normalSpace str)) := by
    intro h
    rcases mem_replace h with ⟨h, -⟩ | h
    · exact semicolon_not_mem_escapes _ h
    · exact absurd h (by decide)
  rw [mem_pair_iff_of_ne (by decide) (by decide), mem_escape_iff_of_ne (by decide) (by decide),
    mem_pair_iff hnew, infix_replace_iff (by decide) (by decide)]
  unfold escapes
  simp (disch := decide) only [infix_escape_iff]

theorem transcribe_eq_nil {str : Str} : Transcribe str = [] ↔ normalSpace str = [] := by
  rw [transcribe_eq, escape_eq_nil]
  unfold separators escapes
  unfold replace
  simp only [pair_eq_nil, escape_eq_nil, List.map_eq_nil_iff]

end

end Emulab.Protogeni
