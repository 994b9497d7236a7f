import Emulab.Stated.Tables

/-! # The pipe from the event reader

  A child reads events and prints one line for each. The daemon polls the pipe and
  takes what is there apart into lines. What has come of a line so far is kept
  between two reads of one call, and is lost at the end of the call: the daemon
  gets all events exactly if no call ends within a line.
-/

namespace Emulab.Stated

open List Option

/-! ## Section 1: Lines -/

/-- The quotation mark around a field -/
def quote : Char := Char.ofNat 39

/-- What the daemon is told of an event. -/
structure EventLine where
  objtype : Str
  objname : Str
  eventtype : Str
  deriving DecidableEq

/-! What stands before the fields -/

def typeText : Str := "OBJTYPE='".toList

def nameText : Str := "', OBJNAME='".toList

def eventText : Str := "', EVENTTYPE='".toList

/-- A line without its newline -/
def EventLine.core (e : EventLine) : Str :=
  typeText ++ (e.objtype ++ (nameText ++ (e.objname ++ (eventText ++ (e.eventtype ++ [quote])))))

/-- `StubHandleEvent`: what the child prints -/
def StubHandleEvent (e : EventLine) : Str := e.core ++ ['\n']

/-- No field has a quotation mark. -/
def EventLine.Quotable (e : EventLine) : Prop :=
  quote ∉ e.objtype ∧ quote ∉ e.objname ∧ quote ∉ e.eventtype

/-- No field has a newline either. -/
def EventLine.Plain (e : EventLine) : Prop := e.Quotable ∧ '\n' ∉ e.core

/-- `split(/^/m, $buf)`: each piece has the newline at its end. -/
def splitLines : Str → List Str
  | [] => []
  | c :: s =>
    if c = '\n' then [c] :: splitLines s
    else
      match splitLines s with
      | [] => [[c]]
      | line :: lines => (c :: line) :: lines

/-- What follows a text in a pattern. -/
def dropText (text s : Str) : Option Str := if text.isPrefixOf s then some (s.drop text.length) else none

/-- `/^OBJTYPE='([^\']*)', OBJNAME='([^\']*)', EVENTTYPE='([^\']*)'$/`, where `$` also
    matches before a newline at the end -/
def matchEvent (line : Str) : Option EventLine := do
  let s ← dropText typeText line
  let objtype := s.takeWhile (· ≠ quote)
  let s ← dropText nameText (s.dropWhile (· ≠ quote))
  let objname := s.takeWhile (· ≠ quote)
  let s ← dropText eventText (s.dropWhile (· ≠ quote))
  let eventtype := s.takeWhile (· ≠ quote)
  let s ← dropText [quote] (s.dropWhile (· ≠ quote))
  if s = [] ∨ s = ['\n'] then some ⟨objtype, objname, eventtype⟩ else none

/-! ## Section 2: Polling -/

/-- The loop over the lines of one read; `lastline` is what is kept. The events are
    those that `handleEvent` is called for, and `none` means that the daemon dies. -/
def lineLoop : Str → List Str → Option (List EventLine × Str)
  | lastline, [] => some ([], lastline)
  | lastline, line :: lines =>
    match matchEvent line with
    | some e => (lineLoop lastline lines).map fun r => (e :: r.1, r.2)
    | none =>
      if lastline = [] ∧ line.head? = some 'O' then lineLoop line lines
      else if line = ['\n'] then lineLoop lastline lines
      else none

/-- The lines of one read, with what was kept in front of the first -/
def readLines (lastline buf : Str) : List Str :=
  match splitLines buf with
  | [] => []
  | line :: lines => (lastline ++ line) :: lines

/-- The loop around `sysread`. It ends when nothing more is available at once. -/
def readLoop : Str → List Str → Option (List EventLine)
  | _, [] => some []
  | lastline, buf :: reads => do
    -- nothing is read at the end of the pipe
    if buf = [] then some []
    else
      let (events, lastline) ← lineLoop [] (readLines lastline buf)
      let rest ← readLoop lastline reads
      some (events ++ rest)

/-- `PollEvents`, with what `sysread` returns in this call -/
def PollEvents (reads : List Str) : Option (List EventLine) := readLoop [] reads

/-- One call after the other -/
def pollAll : List (List Str) → Option (List EventLine)
  | [] => some []
  | reads :: calls => do
    let events ← PollEvents reads
    let rest ← pollAll calls
    some (events ++ rest)

/-! ## Section 3: Lines and quotation marks -/

section Lines

variable {e : EventLine} {line s : Str}

theorem splitLines_of_not_mem (hne : line ≠ []) (hline : '\n' ∉ line) : splitLines line = [line] := by
  induction line with
  | nil => exact absurd rfl hne
  | cons c line ih =>
    rw [mem_cons, not_or] at hline
    rw [splitLines, if_neg (Ne.symm hline.1)]
    cases line with
    | nil => rfl
    | cons c' line => rw [ih (by simp) hline.2]

theorem splitLines_newline (hline : '\n' ∉ line) (s : Str) :
    splitLines (line ++ '\n' :: s) = (line ++ ['\n']) :: splitLines s := by
  induction line with
  | nil => rw [nil_append, splitLines, if_pos rfl, nil_append]
  | cons c line ih =>
    rw [mem_cons, not_or] at hline
    rw [cons_append, splitLines, if_neg (Ne.symm hline.1), ih hline.2]
    rfl

theorem flatten_splitLines (s : Str) : (splitLines s).flatten = s := by
  induction s with
  | nil => rfl
  | cons c s ih =>
    rw [splitLines]
    split
    · rw [flatten_cons, ih]
      rfl
    · cases hlines : splitLines s with
      | nil => rw [← ih, hlines]; rfl
      | cons line lines =>
        rw [hlines, flatten_cons] at ih
        rw [flatten_cons, cons_append, ih]

theorem splitLines_ne_nil (h : line ∈ splitLines s) : line ≠ [] := by
  induction s generalizing line with
  | nil => cases h
  | cons c s ih =>
    rw [splitLines] at h
    split at h
    · rcases mem_cons.mp h with rfl | h
      · simp
      · exact ih h
    · cases hlines : splitLines s with
      | nil =>
        rw [hlines] at h
        rw [mem_singleton.mp h]
        simp
      | cons line' lines =>
        rw [hlines] at h ih
        rcases mem_cons.mp h with rfl | h
        · simp
        · exact ih (mem_cons_of_mem _ h)

theorem flatten_readLines (lastline : Str) {buf : Str} (hbuf : buf ≠ []) :
    (readLines lastline buf).flatten = lastline ++ buf := by
  have hflat := flatten_splitLines buf
  unfold readLines
  cases hlines : splitLines buf with
  | nil =>
    rw [hlines] at hflat
    exact absurd hflat.symm hbuf
  | cons line lines =>
    rw [hlines, flatten_cons] at hflat
    rw [flatten_cons, append_assoc, hflat]

theorem readLines_eq {lastline buf : Str} (hlast : '\n' ∉ lastline) (hbuf : buf ≠ []) :
    readLines lastline buf = splitLines (lastline ++ buf) := by
  induction lastline with
  | nil =>
    unfold readLines
    rw [nil_append]
    cases splitLines buf <;> rfl
  | cons c lastline ih =>
    rw [mem_cons, not_or] at hlast
    rw [cons_append, splitLines, if_neg (Ne.symm hlast.1), ← ih hlast.2]
    unfold readLines
    cases hlines : splitLines buf with
    | nil =>
      have hflat := flatten_splitLines buf
      rw [hlines] at hflat
      exact absurd hflat.symm hbuf
    | cons line lines => rfl

theorem dropText_eq_some {text s r : Str} : dropText text s = some r ↔ s = text ++ r := by
  unfold dropText
  constructor
  · intro h
    split at h
    · rename_i hprefix
      obtain ⟨r', rfl⟩ := isPrefixOf_iff_prefix.mp hprefix
      rw [drop_left, Option.some.injEq] at h
      rw [h]
    · cases h
  · intro h
    have hprefix : text.isPrefixOf s = true := isPrefixOf_iff_prefix.mpr ⟨r, h.symm⟩
    rw [if_pos hprefix, h, drop_left]

theorem takeWhile_field {field rest : Str} (h : quote ∉ field) :
    (field ++ quote :: rest).takeWhile (· ≠ quote) = field ∧
      (field ++ quote :: rest).dropWhile (· ≠ quote) = quote :: rest := by
  have hall : ∀ c ∈ field, (decide (c ≠ quote)) = true := by
    intro c hc
    rw [decide_eq_true_eq]
    intro heq
    exact h (heq ▸ hc)
  rw [takeWhile_append_of_pos hall, dropWhile_append_of_pos hall]
  simp

theorem not_mem_takeWhile (s : Str) : quote ∉ s.takeWhile (· ≠ quote) := by
  intro h
  have hne := all_eq_true.mp all_takeWhile quote h
  simp at hne

theorem nameText_eq : ∃ s, nameText = quote :: s := ⟨", OBJNAME='".toList, by decide⟩

theorem eventText_eq : ∃ s, eventText = quote :: s := ⟨", EVENTTYPE='".toList, by decide⟩

/-- The pattern matches the lines of events with or without a newline, and nothing else. -/
theorem matchEvent_eq_some : matchEvent line = some e ↔
    e.Quotable ∧ (line = e.core ∨ line = e.core ++ ['\n']) := by
  constructor
  · intro h
    unfold matchEvent at h
    obtain ⟨s₁, h₁, h⟩ := bind_eq_some_iff.mp h
    obtain ⟨s₂, h₂, h⟩ := bind_eq_some_iff.mp h
    obtain ⟨s₃, h₃, h⟩ := bind_eq_some_iff.mp h
    obtain ⟨s₄, h₄, h⟩ := bind_eq_some_iff.mp h
    rw [dropText_eq_some] at h₁ h₂ h₃ h₄
    split at h
    · rename_i hend
      obtain rfl := some.inj h
      have hcore : line = typeText ++ (s₁.takeWhile (· ≠ quote) ++ (nameText ++
          (s₂.takeWhile (· ≠ quote) ++ (eventText ++ (s₃.takeWhile (· ≠ quote) ++ ([quote] ++ s₄)))))) := by
        rw [← h₄, takeWhile_append_dropWhile, ← h₃, takeWhile_append_dropWhile, ← h₂,
          takeWhile_append_dropWhile, h₁]
      refine ⟨⟨not_mem_takeWhile _, not_mem_takeWhile _, not_mem_takeWhile _⟩, ?_⟩
      rcases hend with hend | hend
      · left
        rw [hcore, hend, append_nil, EventLine.core]
      · right
        rw [hcore, hend]
        simp only [EventLine.core, append_assoc]
    · cases h
  · intro ⟨⟨htype, hname, hevent⟩, hline⟩
    obtain ⟨rest, hrest, hline⟩ : ∃ rest, (rest = [] ∨ rest = ['\n']) ∧ line = e.core ++ rest := by
      rcases hline with hline | hline
      · exact ⟨[], Or.inl rfl, by rw [hline, append_nil]⟩
      · exact ⟨['\n'], Or.inr rfl, hline⟩
    obtain ⟨name, hnameText⟩ := nameText_eq
    obtain ⟨event, heventText⟩ := eventText_eq
    have hcore : line = typeText ++ (e.objtype ++ (quote :: (name ++ (e.objname ++ (quote :: (event ++
        (e.eventtype ++ (quote :: rest)))))))) := by
      rw [hline]
      simp only [EventLine.core, append_assoc, hnameText, heventText, cons_append, nil_append]
    have htext : ∀ text s : Str, dropText text (text ++ s) = some s := fun _ _ => dropText_eq_some.mpr rfl
    unfold matchEvent
    rw [hcore, htext]
    simp only [bind_eq_bind, bind_some, takeWhile_field htype]
    rw [← cons_append, ← hnameText, htext]
    simp only [bind_some, takeWhile_field hname]
    rw [← cons_append, ← heventText, htext]
    simp only [bind_some, takeWhile_field hevent]
    rw [show quote :: rest = [quote] ++ rest from rfl, htext, bind_some, if_pos hrest]

theorem count_core (h : e.Quotable) : e.core.count quote = 6 := by
  obtain ⟨htype, hname, hevent⟩ := h
  unfold EventLine.core
  rw [count_append, count_append, count_append, count_append, count_append,
    count_append, count_eq_zero_of_not_mem htype, count_eq_zero_of_not_mem hname,
    count_eq_zero_of_not_mem hevent]
  decide

theorem count_of_match (h : matchEvent line = some e) : line.count quote = 6 := by
  obtain ⟨hquotable, hline⟩ := matchEvent_eq_some.mp h
  rcases hline with rfl | rfl
  · exact count_core hquotable
  · rw [count_append, count_core hquotable, count_singleton, if_neg (by decide)]

theorem core_eq (e : EventLine) : ∃ s, e.core = 'O' :: s ++ [quote] := by
  refine ⟨"BJTYPE='".toList ++ (e.objtype ++ (nameText ++ (e.objname ++ (eventText ++ e.eventtype)))), ?_⟩
  have hhead : typeText = 'O' :: "BJTYPE='".toList := by decide
  simp only [EventLine.core, hhead, cons_append, append_assoc]

/-- The part of a line that is missing has a quotation mark. -/
theorem count_cut {p q : Str} (h : e.Quotable) (hcore : e.core = p ++ q) (hq : q ≠ []) : p.count quote < 6 := by
  have hcount := count_core h
  obtain ⟨s, hs⟩ := core_eq e
  have hlast : q.getLast? = some quote := by
    have hget : e.core.getLast? = some quote := by rw [hs, List.getLast?_append]; rfl
    rw [hcore, List.getLast?_append_of_ne_nil _ hq] at hget
    exact hget
  have hmem : quote ∈ q := mem_of_getLast? hlast
  have hpos : 0 < q.count quote := count_pos_iff.mpr hmem
  rw [hcore, count_append] at hcount
  omega

end Lines

/-! ## Section 4: One call -/

/-- What the child prints for some events -/
def texts (lines : List EventLine) : Str := lines.flatMap StubHandleEvent

/-- A text that ends with a line, of which only the newline may be missing. -/
def Body (s : Str) (lines : List EventLine) : Prop := ∃ nl, (nl = [] ∨ nl = ['\n']) ∧ s ++ nl = texts lines

/-- What is left to be read in a call that will not end within a line; the events of `lines` are still to be
    handled. Nothing is kept, or the beginning of the first line. -/
def Unread (lastline rest : Str) (lines : List EventLine) : Prop :=
  (lastline = [] ∧ (Body rest lines ∨ ∃ s, rest = '\n' :: s ∧ Body s lines)) ∨
    (lastline ≠ [] ∧ Body (lastline ++ rest) lines ∧
      ∃ e lines' q, lines = e :: lines' ∧ q ≠ [] ∧ e.core = lastline ++ q)

section

variable {e : EventLine} {lines : List EventLine} {lastline rest s : Str}

@[simp] theorem texts_nil : texts [] = [] := rfl

@[simp] theorem texts_cons (e : EventLine) (lines : List EventLine) :
    texts (e :: lines) = e.core ++ '\n' :: texts lines := by
  simp [texts, StubHandleEvent]

@[simp] theorem texts_append (lines lines' : List EventLine) :
    texts (lines ++ lines') = texts lines ++ texts lines' := flatMap_append

theorem core_ne_nil (e : EventLine) : e.core ≠ [] := by
  obtain ⟨s, hs⟩ := core_eq e
  rw [hs]
  simp

/-- No event has so short a text. -/
theorem eq_nil_of_texts (h : (texts lines).length ≤ 1) : lines = [] := by
  cases lines with
  | nil => rfl
  | cons e lines =>
    have hpos := length_pos_of_ne_nil (core_ne_nil e)
    rw [texts_cons, length_append, length_cons] at h
    omega

/-- At the end of the call nothing is left. -/
theorem Unread.eq_nil (h : Unread lastline [] lines) : lines = [] := by
  rcases h with ⟨-, ⟨nl, hnl, hbody⟩ | ⟨s, hs, -⟩⟩ | ⟨-, ⟨nl, hnl, hbody⟩, e, lines', q, rfl, hq, hcore⟩
  · refine eq_nil_of_texts ?_
    rw [← hbody, nil_append]
    rcases hnl with rfl | rfl <;> simp
  · cases hs
  · -- the kept beginning is shorter than its line, and nothing more comes
    have hlen := congrArg List.length hbody
    have hpos := length_pos_of_ne_nil hq
    rw [texts_cons, hcore] at hlen
    simp only [append_nil, length_append, length_cons] at hlen
    rcases hnl with rfl | rfl <;> simp at hlen <;> omega

theorem lineLoop_event (he : e.Quotable) {line : Str} (hline : line = e.core ∨ line = e.core ++ ['\n'])
    (rest : List Str) : lineLoop lastline (line :: rest) =
      (lineLoop lastline rest).map fun r => (e :: r.1, r.2) := by
  rw [lineLoop, matchEvent_eq_some.mpr ⟨he, hline⟩]

theorem lineLoop_partial (he : e.Plain) {p q : Str} (hcore : e.core = p ++ q) (hp : p ≠ []) (hq : q ≠ []) :
    lineLoop [] [p] = some ([], p) := by
  -- it has fewer quotation marks than what matches
  have hnone : matchEvent p = none := by
    by_contra hsome
    obtain ⟨e', he'⟩ := ne_none_iff_exists'.mp hsome
    have hlt := count_cut he.1 hcore hq
    have heq := count_of_match he'
    omega
  have hhead : p.head? = some 'O' := by
    obtain ⟨s, hs⟩ := core_eq e
    rw [hcore] at hs
    cases p with
    | nil => exact absurd rfl hp
    | cons c p => exact congrArg some (List.cons.inj hs).1
  rw [lineLoop, hnone]
  dsimp only
  rw [if_pos ⟨rfl, hhead⟩, lineLoop]

theorem unread_newline {nl : Str} (hnl : nl = [] ∨ nl = ['\n']) (h : rest ++ nl = '\n' :: texts lines) :
    Unread [] rest lines := by
  refine Or.inl ⟨rfl, ?_⟩
  cases rest with
  | nil =>
    rw [nil_append] at h
    left
    refine ⟨[], Or.inl rfl, ?_⟩
    rcases hnl with hnl | hnl
    · rw [hnl] at h
      cases h
    · rw [hnl] at h
      exact (List.cons.inj h).2
  | cons c rest =>
    obtain ⟨hc, htail⟩ := List.cons.inj h
    exact Or.inr ⟨rest, by rw [hc], nl, hnl, htail⟩

/-- A piece of a text that ends with a line. The induction is on the lines. -/
theorem lineLoop_body (hplain : ∀ e ∈ lines, e.Plain) (hbody : Body (s ++ rest) lines) :
    ∃ done lines' lastline, lineLoop [] (splitLines s) = some (done, lastline) ∧ lines = done ++ lines' ∧
      Unread lastline rest lines' := by
  induction lines generalizing s with
  | nil =>
    obtain ⟨nl, hnl, hs⟩ := hbody
    have hs' : s = [] := by
      rw [texts_nil, append_assoc, append_eq_nil_iff] at hs
      exact hs.1
    rw [hs'] at hs ⊢
    exact ⟨[], [], [], rfl, rfl, Or.inl ⟨rfl, Or.inl ⟨nl, hnl, hs⟩⟩⟩
  | cons e lines ih =>
    have he := hplain e mem_cons_self
    obtain ⟨nl, hnl, hs⟩ := hbody
    rw [texts_cons, append_assoc] at hs
    by_cases hnil : s = []
    · rw [hnil] at hs ⊢
      exact ⟨[], e :: lines, [], rfl, rfl, Or.inl ⟨rfl, Or.inl ⟨nl, hnl, by rw [texts_cons, ← hs]; rfl⟩⟩⟩
    rcases append_eq_append_iff.mp hs with ⟨q, hcore, hq⟩ | ⟨t, ht, hrest⟩
    · by_cases hqnil : q = []
      · -- the piece is one line, up to the newline
        rw [hqnil, append_nil] at hcore
        rw [hqnil, nil_append] at hq
        refine ⟨[e], lines, [], ?_, rfl, unread_newline hnl hq⟩
        rw [← hcore, splitLines_of_not_mem (core_ne_nil e) he.2, lineLoop_event he.1 (Or.inl rfl)]
        rfl
      · -- it ends within the line
        have hline : '\n' ∉ s := fun hmem => he.2 (hcore ▸ mem_append_left _ hmem)
        refine ⟨[], e :: lines, s, ?_, rfl, Or.inr ⟨hnil, ⟨nl, hnl, ?_⟩, e, lines, q, rfl, hqnil, hcore⟩⟩
        · rw [splitLines_of_not_mem hnil hline, lineLoop_partial he hcore hnil hqnil]
        · rw [texts_cons, append_assoc, hs]
    · -- the line is whole; the piece ends before its newline, or goes on behind it
      cases t with
      | nil =>
        rw [append_nil] at ht
        rw [nil_append] at hrest
        refine ⟨[e], lines, [], ?_, rfl, unread_newline hnl hrest.symm⟩
        rw [ht, splitLines_of_not_mem (core_ne_nil e) he.2, lineLoop_event he.1 (Or.inl rfl)]
        rfl
      | cons c t =>
        obtain ⟨rfl, htexts⟩ := List.cons.inj hrest
        have hbody : Body (t ++ rest) lines := ⟨nl, hnl, by rw [append_assoc]; exact htexts.symm⟩
        obtain ⟨done, lines', lastline, hloop, hlines, hunread⟩ :=
          ih (fun e' he' => hplain e' (mem_cons_of_mem _ he')) hbody
        refine ⟨e :: done, lines', lastline, ?_, congrArg (e :: ·) hlines, hunread⟩
        rw [ht, splitLines_newline he.2, lineLoop_event he.1 (Or.inr rfl), hloop]
        rfl

theorem lineLoop_unread {buf : Str} (hbuf : buf ≠ []) (hplain : ∀ e ∈ lines, e.Plain)
    (h : Unread lastline (buf ++ rest) lines) :
    ∃ done lines' lastline', lineLoop [] (readLines lastline buf) = some (done, lastline') ∧
      lines = done ++ lines' ∧ Unread lastline' rest lines' := by
  rcases h with ⟨rfl, hbody | ⟨s, hs, hbody⟩⟩ | ⟨hne, hbody, e, lines', q, hlines, -, hcore⟩
  · rw [readLines_eq not_mem_nil hbuf]
    exact lineLoop_body hplain hbody
  · -- the newline of the line before
    rw [readLines_eq not_mem_nil hbuf, nil_append]
    cases buf with
    | nil => exact absurd rfl hbuf
    | cons c buf =>
      obtain ⟨rfl, hrest⟩ := List.cons.inj hs
      rw [← hrest] at hbody
      have hskip : lineLoop [] (splitLines ('\n' :: buf)) = lineLoop [] (splitLines buf) := by
        rw [splitLines, if_pos rfl, lineLoop, show matchEvent ['\n'] = none by decide]
        dsimp only
        rw [if_neg (by decide), if_pos rfl]
      rw [hskip]
      exact lineLoop_body hplain hbody
  · -- what was kept and the buffer are taken apart together
    have hlast : '\n' ∉ lastline := by
      intro hmem
      have he : e.Plain := hplain e (by rw [hlines]; exact mem_cons_self)
      exact he.2 (hcore ▸ mem_append_left _ hmem)
    rw [readLines_eq hlast hbuf]
    rw [← append_assoc] at hbody
    exact lineLoop_body hplain hbody

theorem readLoop_unread {reads : List Str} (hreads : ∀ buf ∈ reads, buf ≠ []) (hplain : ∀ e ∈ lines, e.Plain)
    (h : Unread lastline reads.flatten lines) : readLoop lastline reads = some lines := by
  induction reads generalizing lastline lines with
  | nil =>
    rw [h.eq_nil]
    rfl
  | cons buf reads ih =>
    have hbuf := hreads buf mem_cons_self
    obtain ⟨done, lines', lastline', hloop, rfl, hunread⟩ := lineLoop_unread hbuf hplain h
    have hrest := ih (fun b hb => hreads b (mem_cons_of_mem _ hb))
      (fun e he => hplain e (mem_append_right _ he)) hunread
    rw [readLoop, if_neg hbuf, hloop, bind_eq_bind, bind_some]
    dsimp only
    rw [hrest]
    rfl

end

/-! ## Section 5: The cuts -/

/-- A cut that is not within a line: at either end, or beside a newline -/
def AtLineEnd (s r : Str) : Prop := s = [] ∨ r = [] ∨ s.getLast? = some '\n' ∨ r.head? = some '\n'

/-- Where the text of some events is cut -/
theorem cut_cases {lines : List EventLine} (hplain : ∀ e ∈ lines, e.Plain) {s r : Str} (h : s ++ r = texts lines) :
    (AtLineEnd s r ∧ ∃ done rest nl, lines = done ++ rest ∧ (nl = [] ∨ nl = ['\n']) ∧ s ++ nl = texts done ∧
      r = nl ++ texts rest) ∨
    (¬AtLineEnd s r ∧ ∃ done e rest p q, lines = done ++ e :: rest ∧ p ≠ [] ∧ q ≠ [] ∧ e.core = p ++ q ∧
      s = texts done ++ p ∧ r = q ++ '\n' :: texts rest) := by
  induction lines generalizing s with
  | nil =>
    obtain ⟨rfl, rfl⟩ := append_eq_nil_iff.mp h
    exact Or.inl ⟨Or.inl rfl, [], [], [], rfl, Or.inl rfl, rfl, rfl⟩
  | cons e lines ih =>
    have he := hplain e mem_cons_self
    by_cases hs : s = []
    · rw [hs, nil_append] at h
      exact Or.inl ⟨Or.inl hs, [], e :: lines, [], rfl, Or.inl rfl, by rw [hs]; rfl, h⟩
    rw [texts_cons] at h
    rcases append_eq_append_iff.mp h with ⟨q, hcore, hq⟩ | ⟨t, ht, hrest⟩
    · by_cases hqnil : q = []
      · -- the newline is the first character behind the cut
        rw [hqnil, append_nil] at hcore
        rw [hqnil, nil_append] at hq
        refine Or.inl ⟨Or.inr (Or.inr (Or.inr (by rw [hq]; rfl))), [e], lines, ['\n'], rfl, Or.inr rfl, ?_, hq⟩
        rw [← hcore]
        simp
      · -- the cut is within the first line
        refine Or.inr ⟨?_, [], e, lines, s, q, rfl, hs, hqnil, hcore, rfl, hq⟩
        have hsline : '\n' ∉ s := fun hmem => he.2 (hcore ▸ mem_append_left _ hmem)
        have hqline : '\n' ∉ q := fun hmem => he.2 (hcore ▸ mem_append_right _ hmem)
        intro hend
        rcases hend with hend | hend | hend | hend
        · exact hs hend
        · rw [hq] at hend
          simp at hend
        · exact hsline (mem_of_getLast? hend)
        · rw [hq, List.head?_append_of_ne_nil _ hqnil] at hend
          exact hqline (mem_of_head? hend)
    · cases t with
      | nil =>
        rw [append_nil] at ht
        rw [nil_append] at hrest
        refine Or.inl ⟨Or.inr (Or.inr (Or.inr (by rw [← hrest]; rfl))), [e], lines, ['\n'], rfl, Or.inr rfl, ?_,
          hrest.symm⟩
        rw [ht]
        simp
      | cons c t =>
        -- the cut is in the lines behind the first, or beside their ends
        obtain ⟨rfl, htexts⟩ := List.cons.inj hrest
        have htail : t ++ r = texts lines := htexts.symm
        have hiff : AtLineEnd t r → AtLineEnd s r := by
          intro hend
          rcases hend with hend | hend | hend | hend
          · right; right; left
            rw [ht, hend]
            simp
          · exact Or.inr (Or.inl hend)
          · right; right; left
            rw [ht, List.getLast?_append, List.getLast?_cons, hend]
            rfl
          · exact Or.inr (Or.inr (Or.inr hend))
        rcases ih (fun e' he' => hplain e' (mem_cons_of_mem _ he')) htail with
          ⟨hend, done, rest, nl, rfl, hnl, hdone, hr⟩ | ⟨hend, done, e', rest, p, q, rfl, hp, hq, hcore, htp, hr⟩
        · refine Or.inl ⟨hiff hend, e :: done, rest, nl, rfl, hnl, ?_, hr⟩
          rw [ht, texts_cons, ← hdone]
          simp
        · refine Or.inr ⟨fun hs' => hend ?_, e :: done, e', rest, p, q, rfl, hp, hq, hcore, ?_, hr⟩
          · have htne : t ≠ [] := by
              rw [htp]
              simp [hp]
            rcases hs' with hs' | hs' | hs' | hs'
            · exact absurd hs' hs
            · exact Or.inr (Or.inl hs')
            · right; right; left
              rw [ht, List.getLast?_append_of_ne_nil _ (by simp), List.getLast?_cons_of_ne_nil htne] at hs'
              exact hs'
            · exact Or.inr (Or.inr (Or.inr hs'))
          · rw [ht, htp, texts_cons]
            simp

theorem count_texts {lines : List EventLine} (hplain : ∀ e ∈ lines, e.Plain) :
    (texts lines).count quote = 6 * lines.length := by
  induction lines with
  | nil => rfl
  | cons e lines ih =>
    rw [texts_cons, count_append, count_core (hplain e mem_cons_self).1,
      count_cons_of_ne (by decide), ih fun e' he' => hplain e' (mem_cons_of_mem _ he'), length_cons]
    omega

variable {events : List EventLine}

/-- Every event that is handled takes up the quotation marks of a line. -/
theorem lineLoop_count {lastline lastline' : Str} {pieces : List Str}
    (h : lineLoop lastline pieces = some (events, lastline')) :
    6 * events.length + lastline'.count quote ≤ lastline.count quote + pieces.flatten.count quote := by
  induction pieces generalizing lastline events with
  | nil =>
    obtain ⟨rfl, rfl⟩ := Prod.mk.inj (some.inj h)
    simp
  | cons line pieces ih =>
    rw [flatten_cons, count_append]
    rw [lineLoop] at h
    cases hmatch : matchEvent line with
    | some e =>
      rw [hmatch] at h
      obtain ⟨⟨events', last⟩, hloop, heq⟩ := map_eq_some_iff.mp h
      obtain ⟨rfl, rfl⟩ := Prod.mk.inj heq
      have hle := ih hloop
      have hcount := count_of_match hmatch
      dsimp only at hle ⊢
      rw [length_cons]
      omega
    | none =>
      rw [hmatch] at h
      dsimp only at h
      split at h
      · have hle := ih h
        omega
      split at h
      · have hle := ih h
        omega
      · cases h

theorem readLoop_count {lastline : Str} {reads : List Str} (h : readLoop lastline reads = some events) :
    6 * events.length ≤ lastline.count quote + reads.flatten.count quote := by
  induction reads generalizing lastline events with
  | nil =>
    obtain rfl := some.inj h
    simp
  | cons buf reads ih =>
    rw [readLoop] at h
    split at h
    · obtain rfl := some.inj h
      simp
    · rename_i hbuf
      obtain ⟨⟨done, lastline'⟩, hloop, h⟩ := bind_eq_some_iff.mp h
      obtain ⟨rest, hrest, h⟩ := bind_eq_some_iff.mp h
      obtain rfl := some.inj h
      have hle := lineLoop_count hloop
      have hle' := ih hrest
      rw [flatten_readLines _ hbuf, count_append] at hle
      rw [flatten_cons, count_append, length_append]
      simp only [count_nil] at hle
      omega

theorem pollAll_count {calls : List (List Str)} (h : pollAll calls = some events) :
    6 * events.length ≤ calls.flatten.flatten.count quote := by
  induction calls generalizing events with
  | nil =>
    obtain rfl := some.inj h
    simp
  | cons reads calls ih =>
    obtain ⟨done, hdone, h⟩ := bind_eq_some_iff.mp h
    obtain ⟨rest, hrest, h⟩ := bind_eq_some_iff.mp h
    obtain rfl := some.inj h
    have hle := readLoop_count hdone
    have hle' := ih hrest
    rw [flatten_cons, flatten_append, count_append, length_append]
    simp only [count_nil] at hle
    omega

theorem pollAll_append {calls calls' : List (List Str)} (h : pollAll (calls ++ calls') = some events) :
    ∃ done rest, pollAll calls = some done ∧ pollAll calls' = some rest ∧ events = done ++ rest := by
  induction calls generalizing events with
  | nil => exact ⟨[], events, rfl, h, rfl⟩
  | cons reads calls ih =>
    obtain ⟨first, hfirst, h⟩ := bind_eq_some_iff.mp h
    obtain ⟨more, hmore, h⟩ := bind_eq_some_iff.mp h
    obtain rfl := some.inj h
    obtain ⟨done, rest, hdone, hrest, rfl⟩ := ih hmore
    refine ⟨first ++ done, rest, ?_, hrest, (append_assoc _ _ _).symm⟩
    rw [pollAll, hfirst, hdone]
    rfl

/-- The first line of a call begins with an O, or is empty: anything else is fatal. -/
theorem pollAll_head {calls : List (List Str)}
    (hreads : ∀ reads ∈ calls, ∀ buf ∈ reads, buf ≠ []) (h : pollAll calls = some events) {c : Char} {s : Str}
    (hs : calls.flatten.flatten = c :: s) : c = 'O' ∨ c = '\n' := by
  induction calls generalizing events with
  | nil => cases hs
  | cons reads calls ih =>
    obtain ⟨done, hdone, h⟩ := bind_eq_some_iff.mp h
    obtain ⟨rest, hrest, -⟩ := bind_eq_some_iff.mp h
    cases reads with
    | nil => exact ih (fun reads hr => hreads reads (mem_cons_of_mem _ hr)) hrest hs
    | cons buf reads =>
      have hbuf := hreads _ mem_cons_self buf mem_cons_self
      have hhead : buf.head? = some c := by
        have hget := congrArg List.head? hs
        rw [flatten_cons, flatten_append, flatten_cons, append_assoc, List.head?_append_of_ne_nil _ hbuf] at hget
        exact hget
      -- the first line has the same first character
      have hflat := flatten_readLines [] hbuf
      unfold PollEvents at hdone
      rw [readLoop, if_neg hbuf] at hdone
      obtain ⟨r, hloop, -⟩ := bind_eq_some_iff.mp hdone
      rw [nil_append] at hflat
      cases hlines : readLines [] buf with
      | nil =>
        rw [hlines] at hflat
        exact absurd hflat.symm hbuf
      | cons line lines =>
        have hline : line ≠ [] := by
          unfold readLines at hlines
          cases hsplit : splitLines buf with
          | nil =>
            rw [hsplit] at hlines
            cases hlines
          | cons line' lines' =>
            rw [hsplit] at hlines
            obtain rfl := (List.cons.inj hlines).1
            exact splitLines_ne_nil (hsplit ▸ mem_cons_self)
        rw [hlines, flatten_cons] at hflat
        rw [← hflat, List.head?_append_of_ne_nil _ hline] at hhead
        rw [hlines, lineLoop] at hloop
        cases hmatch : matchEvent line with
        | some e =>
          left
          obtain ⟨s, hs⟩ := core_eq e
          rcases (matchEvent_eq_some.mp hmatch).2 with rfl | rfl
          · rw [hs] at hhead
            exact (some.inj hhead).symm
          · rw [hs] at hhead
            exact (some.inj hhead).symm
        | none =>
          rw [hmatch] at hloop
          dsimp only at hloop
          split at hloop
          · rename_i hO
            rw [hO.2] at hhead
            exact Or.inl (some.inj hhead).symm
          split at hloop
          · rename_i hnewline
            rw [hnewline] at hhead
            exact Or.inr (some.inj hhead).symm
          · cases hloop

/-! ## Section 6: All events arrive -/

theorem pollAll_of_cuts {lines : List EventLine} (hplain : ∀ e ∈ lines, e.Plain) {calls : List (List Str)}
    (hreads : ∀ reads ∈ calls, ∀ buf ∈ reads, buf ≠ []) {nl : Str} (hnl : nl = [] ∨ nl = ['\n'])
    (hcuts : ∀ pre post, calls = pre ++ post → ∃ done rest nl', lines = done ++ rest ∧ (nl' = [] ∨ nl' = ['\n']) ∧
      pre.flatten.flatten ++ nl' = nl ++ texts done ∧ post.flatten.flatten = nl' ++ texts rest) :
    pollAll calls = some lines := by
  induction calls generalizing lines nl with
  | nil =>
    obtain ⟨done, rest, nl', rfl, hnl', hpre, hpost⟩ := hcuts [] [] rfl
    obtain ⟨rfl, hrest⟩ := append_eq_nil_iff.mp hpost.symm
    have hdone : texts done = [] := (append_eq_nil_iff.mp hpre.symm).2
    have hdone' : done = [] := eq_nil_of_texts (by rw [hdone]; simp)
    have hrest' : rest = [] := eq_nil_of_texts (by rw [hrest]; simp)
    rw [hdone', hrest']
    rfl
  | cons reads calls ih =>
    obtain ⟨done, rest, nl', rfl, hnl', hpre, hpost⟩ := hcuts [reads] calls rfl
    rw [flatten_singleton] at hpre
    have hunread : Unread [] reads.flatten done := by
      rcases hnl with rfl | rfl
      · exact Or.inl ⟨rfl, Or.inl ⟨nl', hnl', hpre⟩⟩
      · exact unread_newline hnl' hpre
    have hfirst : PollEvents reads = some done :=
      readLoop_unread (hreads reads mem_cons_self) (fun e he => hplain e (mem_append_left _ he)) hunread
    have hmore : pollAll calls = some rest := by
      refine ih (fun e he => hplain e (mem_append_right _ he))
        (fun reads hr => hreads reads (mem_cons_of_mem _ hr)) hnl' fun pre post hsplit => ?_
      obtain ⟨done₂, rest₂, nl₂, hlines, hnl₂, hpre₂, hpost₂⟩ := hcuts (reads :: pre) post (by rw [hsplit]; rfl)
      rw [flatten_cons, flatten_append] at hpre₂
      rcases append_eq_append_iff.mp hlines with ⟨x, rfl, hx⟩ | ⟨x, rfl, hx⟩
      · refine ⟨x, rest₂, nl₂, hx, hnl₂, ?_, hpost₂⟩
        rw [texts_append, ← append_assoc, ← hpre, append_assoc, append_assoc] at hpre₂
        exact append_cancel_left hpre₂
      · -- a later cut has no fewer lines in front of it
        rw [texts_append, ← append_assoc, ← hpre₂, append_assoc, append_assoc] at hpre
        have htail := append_cancel_left hpre
        have hlen := congrArg List.length htail
        simp only [length_append] at hlen
        have hle : nl'.length ≤ 1 := by rcases hnl' with rfl | rfl <;> simp
        have hxnil : x = [] := eq_nil_of_texts (by omega)
        subst hxnil
        refine ⟨[], rest₂, nl₂, by rw [hx]; rfl, hnl₂, ?_, hpost₂⟩
        rw [htail]
        simp
    rw [pollAll, hfirst, hmore]
    rfl

/-- The beginning of a line up to the first quotation mark -/
theorem count_prefix {e : EventLine} {p q : Str} (hcore : e.core = p ++ q) (hp : p ≠ []) (hzero : p.count quote = 0) :
    ∃ c s, q = c :: s ∧ c ≠ 'O' ∧ c ≠ '\n' := by
  have htake : e.core.take 9 = typeText := by
    unfold EventLine.core
    rw [take_append_of_le_length (by decide), take_of_length_le (by decide)]
  have hlen : p.length < 9 := by
    by_contra hle
    have hquote : quote ∈ e.core.take 9 := by
      rw [htake]
      decide
    rw [hcore, take_append_of_le_length (by omega)] at hquote
    exact count_eq_zero.mp hzero (mem_of_mem_take hquote)
  have hpos := length_pos_of_ne_nil hp
  have hget : typeText[p.length]? = q.head? := by
    rw [← htake, List.getElem?_take_of_lt hlen, hcore, List.getElem?_append_right le_rfl, Nat.sub_self,
      List.head?_eq_getElem?]
  have hother : ∀ k < 9, 0 < k → typeText[k]?.any (fun c => c ≠ 'O' && c ≠ '\n') = true := by decide
  obtain ⟨c, hc, hne⟩ := (any_eq_true _ _).mp (hother p.length hlen hpos)
  obtain ⟨hO, hnewline⟩ := by simpa using hne
  rw [hget] at hc
  obtain ⟨s, hs⟩ := List.head?_eq_some_iff.mp hc
  exact ⟨c, s, hs, hO, hnewline⟩

/-- However what the child prints is cut into reads and the reads into calls, the daemon handles each event
    once, in order, and does not die, exactly if no call ends within a line. -/
theorem pollEvents_iff {lines : List EventLine} (hplain : ∀ e ∈ lines, e.Plain) {calls : List (List Str)}
    (hreads : ∀ reads ∈ calls, ∀ buf ∈ reads, buf ≠ []) (hbytes : calls.flatten.flatten = texts lines) :
    pollAll calls = some lines ↔
      ∀ pre post, calls = pre ++ post → AtLineEnd pre.flatten.flatten post.flatten.flatten := by
  have hcut : ∀ pre post, calls = pre ++ post → pre.flatten.flatten ++ post.flatten.flatten = texts lines := by
    intro pre post hsplit
    rw [← hbytes, hsplit, flatten_append, flatten_append]
  constructor
  · intro h pre post hsplit
    rcases cut_cases hplain (hcut pre post hsplit) with
      ⟨hend, -⟩ | ⟨-, done, e, rest, p, q, hlines, hp, hq, hcore, hpre, hpost⟩
    · exact hend
    · exfalso
      rw [hsplit] at h
      obtain ⟨first, second, hfirst, hsecond, rfl⟩ := pollAll_append h
      have he : e.Plain := hplain e (by rw [hlines]; simp)
      have hdone : ∀ e' ∈ done, e'.Plain := fun e' he' =>
        hplain e' (by rw [hlines]; exact mem_append_left _ he')
      -- no quotation mark is lost, so there was none before the cut
      have hle := pollAll_count hfirst
      have hle' := pollAll_count hsecond
      have htotal := congrArg (List.count quote) (hcut pre post hsplit)
      rw [count_append, count_texts hplain, length_append] at htotal
      have hcount : pre.flatten.flatten.count quote = 6 * done.length + p.count quote := by
        rw [hpre, count_append, count_texts hdone]
      have hlt := count_cut he.1 hcore hq
      obtain ⟨c, s, hqs, hO, hnewline⟩ := count_prefix hcore hp (by omega)
      have hhead : post.flatten.flatten = c :: (s ++ '\n' :: texts rest) := by
        rw [hpost, hqs]
        rfl
      have hreads' : ∀ reads ∈ post, ∀ buf ∈ reads, buf ≠ [] := fun reads hr =>
        hreads reads (by rw [hsplit]; exact mem_append_right _ hr)
      rcases pollAll_head hreads' hsecond hhead with heq | heq
      · exact hO heq
      · exact hnewline heq
  · intro hends
    refine pollAll_of_cuts hplain hreads (Or.inl rfl) fun pre post hsplit => ?_
    rcases cut_cases hplain (hcut pre post hsplit) with ⟨-, hstructure⟩ | ⟨hnot, -⟩
    · exact hstructure
    · exact absurd (hends pre post hsplit) hnot

def nodeUp : EventLine := ⟨"TBNODESTATE".toList, "pc1".toList, "ISUP".toList⟩

/-- A read that ends within a line, and a call that ends before the newline. -/
theorem pollEvents_iff_newline : pollAll [[nodeUp.core.take 20, nodeUp.core.drop 20], [['\n']]] = some [nodeUp] ∧
      ∀ pre post, [[nodeUp.core.take 20, nodeUp.core.drop 20], [['\n']]] = pre ++ post →
        AtLineEnd pre.flatten.flatten post.flatten.flatten := by
  have hplain : ∀ e ∈ [nodeUp], e.Plain := by
    intro e he
    rw [mem_singleton.mp he]
    unfold EventLine.Plain EventLine.Quotable
    decide
  have hread : pollAll [[nodeUp.core.take 20, nodeUp.core.drop 20], [['\n']]] = some [nodeUp] := by
    decide +kernel
  exact ⟨hread, (pollEvents_iff hplain (by decide +kernel) (by decide +kernel)).mp hread⟩

/-- A call that ends within a line. -/
theorem cut_line_fatal : ¬∀ (lines : List EventLine) (calls : List (List Str)), (∀ e ∈ lines, e.Plain) →
    (∀ reads ∈ calls, ∀ buf ∈ reads, buf ≠ []) → calls.flatten.flatten = texts lines →
    pollAll calls = some lines := by
  intro h
  have hplain : ∀ e ∈ [nodeUp], e.Plain := by
    intro e he
    rw [mem_singleton.mp he]
    unfold EventLine.Plain EventLine.Quotable
    decide
  have hread := h [nodeUp] [[nodeUp.core.take 20], [nodeUp.core.drop 20 ++ ['\n']]] hplain
    (by decide +kernel) (by decide +kernel)
  have hfatal : pollAll [[nodeUp.core.take 20], [nodeUp.core.drop 20 ++ ['\n']]] = none := by decide +kernel
  rw [hfatal] at hread
  cases hread

end Emulab.Stated
