import Mathlib.Data.List.TakeWhile

/-! # The arguments of an event

  The arguments of an event are one text of pairs `KEY=value`, where a value
  may stand in braces or in quotes. `event_arg_get` looks for a key at each
  word of the text. The words are found without regard to the quotes, so that
  the words inside of a quoted value are looked at as well.
-/

namespace Emulab.Event

open List Option

/-! ## Section 1: The search for a key -/

inductive Errno where
  | EINVAL
  | ESRCH
  | ENOMEM
deriving DecidableEq

/-- What `event_arg_get` leaves. -/
structure ArgGet where
  retval : Int
  value_out : Option (List Char)
  errno : Option Errno
deriving DecidableEq

def apostrophe : Char := Char.ofNat 39

/-- The characters of `WHITESPACE`. -/
def isBlank (c : Char) : Bool := c = ' ' ∨ c = '\t'

/-- `str + strspn(str, WHITESPACE)` -/
def skipBlanks (str : List Char) : List Char := str.dropWhile isBlank

/-- `str + strcspn(str, WHITESPACE)` -/
def skipWord (str : List Char) : List Char := str.dropWhile fun c => !isBlank c

/-- The loop of `match_quote`: the text from the brace on that closes the last of `count`. -/
def matchBraces : Nat → List Char → Option (List Char)
  | _, [] => none
  | count, c :: str =>
    if c = '{' then matchBraces (count + 1) str
    else if c = '}' then (if count = 1 then some (c :: str) else matchBraces (count - 1) str)
    else matchBraces count str

/-- The matching brace of the one that `str` begins with. -/
def match_quote (str : List Char) : Option (List Char) := matchBraces 1 str.tail

/-- `strchr(str, c)` -/
def strchr (c : Char) : List Char → Option (List Char)
  | [] => none
  | d :: str => if d = c then some (d :: str) else strchr c str

/-- `strcmp` of two names ignoring case. -/
def sameKey (a b : List Char) : Bool := a.map Char.toLower = b.map Char.toLower

/-- The value that begins after the `=` of a pair. -/
def valueAt (str : List Char) (errno : Option Errno) : ArgGet :=
  match str with
  | [] => ⟨0, some [], errno⟩
  | c :: rest =>
    if c = '{' then
      match match_quote (c :: rest) with
      | none => ⟨-1, none, some .EINVAL⟩
      | some value_end => ⟨rest.length - value_end.length, some rest, errno⟩
    else if c = apostrophe then
      match strchr apostrophe rest with
      | none => ⟨-1, some rest, some .EINVAL⟩
      | some value_end => ⟨rest.length - value_end.length, some rest, errno⟩
    else ⟨((c :: rest).takeWhile fun c => !isBlank c).length, some (c :: rest), errno⟩

/-- One round of the loop of `event_arg_get`: what the function returns if the loop ends here. -/
def argAt (key args : List Char) (errno : Option Errno) : Option ArgGet :=
  match strchr '=' args with
  | none => some ⟨-1, none, some .EINVAL⟩
  | some key_end =>
    let name := args.take (args.length - key_end.length)
    if key.length ≠ name.length ∨ ¬ sameKey name key then none
    else some (valueAt key_end.tail errno)

theorem length_skip (c : Char) (args : List Char) :
    (skipBlanks (skipWord (c :: args))).length < (c :: args).length := by
  have hword : (skipWord args).length ≤ args.length := length_dropWhile_le _ _
  have hblanks : ∀ l : List Char, (skipBlanks l).length ≤ l.length := fun l => length_dropWhile_le _ _
  by_cases hc : isBlank c
  · have hstay : skipWord (c :: args) = c :: args := by simp [skipWord, hc]
    have hskip : skipBlanks (c :: args) = skipBlanks args := by simp [skipBlanks, hc]
    rw [hstay, hskip]
    exact Nat.lt_succ_of_le (hblanks args)
  · have hskip : skipWord (c :: args) = skipWord args := by simp [skipWord, hc]
    rw [hskip]
    exact Nat.lt_succ_of_le ((hblanks _).trans hword)

/-- The loop of `event_arg_get`. -/
def argLoop (key : List Char) (args : List Char) (errno : Option Errno) : ArgGet :=
  match args with
  | [] => ⟨-1, none, errno⟩
  | c :: rest =>
    match argAt key (c :: rest) errno with
    | some found => found
    | none => argLoop key (skipBlanks (skipWord (c :: rest))) (some .ESRCH)
termination_by args.length
decreasing_by exact length_skip c rest

def event_arg_get (args key : List Char) : ArgGet := argLoop key (skipBlanks args) none

/-- What `event_arg_dup` leaves. -/
structure ArgDup where
  retval : Int
  value_out : Option (List Char)
  errno : Option Errno
deriving DecidableEq

/-- `malloc` says for which sizes there is memory. -/
def event_arg_dup (malloc : Nat → Bool) (args key : List Char) : ArgDup :=
  match event_arg_get args key with
  | ⟨.ofNat retval, value, errno⟩ =>
    if malloc (retval + 1) then ⟨retval, value.map (·.take retval), errno⟩
    else ⟨-1, none, some .ENOMEM⟩
  | ⟨.negSucc n, _, errno⟩ => ⟨.negSucc n, none, errno⟩

/-! ## Section 2: Rendered arguments -/

/-- Text in which every brace has its partner. -/
inductive Balanced : List Char → Prop where
  | nil : Balanced []
  | char {c : Char} {t : List Char} (hopen : c ≠ '{') (hclose : c ≠ '}') (ht : Balanced t) : Balanced (c :: t)
  | nest {t u : List Char} (ht : Balanced t) (hu : Balanced u) : Balanced ('{' :: (t ++ '}' :: u))

inductive ArgValue where
  | bare (text : List Char)
  | braced (text : List Char)
  | quoted (text : List Char)
deriving DecidableEq

def ArgValue.text : ArgValue → List Char
  | .bare text => text
  | .braced text => text
  | .quoted text => text

/-- What a value looks like after the `=`. -/
def ArgValue.render : ArgValue → List Char
  | .bare text => text
  | .braced text => '{' :: (text ++ ['}'])
  | .quoted text => apostrophe :: (text ++ [apostrophe])

def ArgValue.fromText : ArgValue → List Char
  | .bare text => text
  | .braced text => text ++ ['}']
  | .quoted text => text ++ [apostrophe]

def ArgValue.WellFormed : ArgValue → Prop
  | .bare text => (∀ c ∈ text, ¬ isBlank c) ∧ ∀ c ∈ text.head?, c ≠ '{' ∧ c ≠ apostrophe
  | .braced text => Balanced text
  | .quoted text => apostrophe ∉ text

structure Pair where
  key : List Char
  value : ArgValue
  key_plain : ∀ c ∈ key, ¬ isBlank c ∧ c ≠ '='
  value_ok : value.WellFormed

def Pair.render (p : Pair) : List Char := p.key ++ '=' :: p.value.render

/-- Pairs, each with the blanks that follow it. -/
def render (items : List (Pair × List Char)) : List Char :=
  items.flatMap fun item => item.1.render ++ item.2

/-- There are only blanks between the pairs, and at least one between two of them. -/
def Separated : List (Pair × List Char) → Prop
  | [] => True
  | item :: items =>
    (∀ c ∈ item.2, isBlank c) ∧ (items ≠ [] → item.2 ≠ []) ∧ Separated items

/-- The arguments of an event as a sender writes them. -/
structure Arguments where
  lead : List Char
  items : List (Pair × List Char)
  lead_blank : ∀ c ∈ lead, isBlank c
  separated : Separated items

def Arguments.text (a : Arguments) : List Char := a.lead ++ render a.items

/-- The value of the first pair with a key, and the arguments from the text of this value on. -/
def firstPair (key : List Char) : List (Pair × List Char) → Option (ArgValue × List Char)
  | [] => none
  | (p, sep) :: items =>
    if sameKey p.key key then some (p.value, p.value.fromText ++ (sep ++ render items))
    else firstPair key items

/-- The value of the first pair with the key is found, and copied if there is memory for it; without
    such a pair both fail. -/
def Correct (a : Arguments) (key : List Char) : Prop :=
  match firstPair key a.items with
  | some (value, place) =>
    (event_arg_get a.text key).retval = value.text.length ∧
    (event_arg_get a.text key).value_out = some place ∧
    ∀ malloc, malloc (value.text.length + 1) = true →
      (event_arg_dup malloc a.text key).retval = value.text.length ∧
      (event_arg_dup malloc a.text key).value_out = some value.text
  | none =>
    (event_arg_get a.text key).retval < 0 ∧
    ∀ malloc, (event_arg_dup malloc a.text key).retval < 0 ∧ (event_arg_dup malloc a.text key).value_out = none

/-! ## Section 3: The words of a text -/

/-- The words that begin in `text`, each with all that follows it up to the end of `rest`. -/
def wordsIn (afterBlank : Bool) (text rest : List Char) : List (List Char) :=
  match text with
  | [] => []
  | c :: text =>
    if isBlank c then wordsIn true text rest
    else if afterBlank then (c :: text ++ rest) :: wordsIn false text rest
    else wordsIn false text rest

/-- Whether a blank is before what comes after `text`. -/
def endsBlank (afterBlank : Bool) : List Char → Bool
  | [] => afterBlank
  | c :: text => endsBlank (isBlank c) text

/-- The loop over the words of the arguments. -/
def scan (key : List Char) : List (List Char) → Option Errno → ArgGet
  | [], errno => ⟨-1, none, errno⟩
  | word :: words, errno => (argAt key word errno).getD (scan key words (some .ESRCH))

theorem argLoop_eq_scan (key args : List Char) : ∀ errno,
    argLoop key (skipBlanks args) errno = scan key (wordsIn true args []) errno ∧
    argLoop key (skipBlanks (skipWord args)) errno = scan key (wordsIn false args []) errno := by
  induction args with
  | nil =>
    intro errno
    simp [skipBlanks, skipWord, wordsIn, scan, argLoop]
  | cons c args ih =>
    intro errno
    by_cases hc : isBlank c
    · have hblanks : skipBlanks (c :: args) = skipBlanks args := by simp [skipBlanks, hc]
      have hword : skipWord (c :: args) = c :: args := by simp [skipWord, hc]
      rw [hword, hblanks]
      simpa [wordsIn, hc] using (ih errno).1
    · have hblanks : skipBlanks (c :: args) = c :: args := by simp [skipBlanks, hc]
      have hword : skipWord (c :: args) = skipWord args := by simp [skipWord, hc]
      rw [hword, hblanks]
      refine ⟨?_, by simpa [wordsIn, hc] using (ih errno).2⟩
      rw [argLoop, hword, (ih _).2]
      simp only [wordsIn, hc, append_nil, scan, if_true, if_false, Bool.false_eq_true]
      cases argAt key (c :: args) errno <;> rfl

theorem event_arg_get_eq_scan (args key : List Char) :
    event_arg_get args key = scan key (wordsIn true args []) none :=
  (argLoop_eq_scan key args none).1

theorem wordsIn_append (text text' rest : List Char) : ∀ afterBlank, wordsIn afterBlank (text ++ text') rest =
      wordsIn afterBlank text (text' ++ rest) ++ wordsIn (endsBlank afterBlank text) text' rest := by
  induction text with
  | nil => intro _; rfl
  | cons c text ih =>
    intro afterBlank
    by_cases hc : isBlank c <;> cases afterBlank <;> simp [wordsIn, endsBlank, hc, ih]

theorem wordsIn_plain {text : List Char} (h : ∀ c ∈ text, ¬ isBlank c) (rest : List Char) :
    wordsIn false text rest = [] ∧ endsBlank false text = false := by
  induction text with
  | nil => exact ⟨rfl, rfl⟩
  | cons c text ih =>
    have hc := h c mem_cons_self
    simpa [wordsIn, endsBlank, hc] using ih fun c hc => h c (mem_cons_of_mem _ hc)

theorem wordsIn_blank {text : List Char} (h : ∀ c ∈ text, isBlank c) (rest : List Char) :
    ∀ afterBlank, wordsIn afterBlank text rest = [] ∧ (text ≠ [] → endsBlank afterBlank text = true) := by
  induction text with
  | nil => exact fun _ => ⟨rfl, fun hne => absurd rfl hne⟩
  | cons c text ih =>
    intro afterBlank
    have hc := h c mem_cons_self
    have ih := ih (fun c hc => h c (mem_cons_of_mem _ hc)) true
    refine ⟨by simpa [wordsIn, hc] using ih.1, fun _ => ?_⟩
    cases text with
    | nil => simp [endsBlank, hc]
    | cons d text => simpa [endsBlank, hc] using ih.2

theorem mem_wordsIn {text rest word : List Char} : ∀ {afterBlank},
    word ∈ wordsIn afterBlank text rest → ∃ front, front ≠ [] ∧ front <:+ text ∧ word = front ++ rest := by
  induction text with
  | nil => intro _ h; cases h
  | cons c text ih =>
    intro afterBlank h
    have hlater : ∀ {b}, word ∈ wordsIn b text rest →
        ∃ front, front ≠ [] ∧ front <:+ c :: text ∧ word = front ++ rest := by
      intro b hb
      obtain ⟨front, hne, hsuffix, rfl⟩ := ih hb
      exact ⟨front, hne, hsuffix.trans (suffix_cons c text), rfl⟩
    rw [wordsIn] at h
    split at h
    · exact hlater h
    · split at h
      · rcases mem_cons.mp h with rfl | h
        · exact ⟨c :: text, cons_ne_nil _ _, suffix_rfl, rfl⟩
        · exact hlater h
      · exact hlater h

theorem wordsIn_pairwise (text rest : List Char) : ∀ afterBlank,
    (wordsIn afterBlank text rest).Pairwise fun word later => later <:+ word := by
  induction text with
  | nil => exact fun _ => List.Pairwise.nil
  | cons c text ih =>
    intro afterBlank
    rw [wordsIn]
    split
    · exact ih true
    · split
      · refine pairwise_cons.mpr ⟨fun later hlater => ?_, ih false⟩
        obtain ⟨front, -, ⟨skipped, hskipped⟩, rfl⟩ := mem_wordsIn hlater
        exact ⟨c :: skipped, by simp [← hskipped]⟩
      · exact ih false

/-! ## Section 4: What is found at a word -/

/-- The word reads as a pair with the key. -/
def looksLike (key word : List Char) : Bool :=
  match strchr '=' word with
  | none => false
  | some key_end => sameKey (word.take (word.length - key_end.length)) key

/-- A value that begins with a quote which nothing closes. -/
def Unclosed (value : List Char) : Prop :=
  ∃ rest, value = '{' :: rest ∧ matchBraces 1 rest = none ∨ value = apostrophe :: rest ∧ apostrophe ∉ rest

theorem strchr_eq_none {c : Char} {str : List Char} : strchr c str = none ↔ c ∉ str := by
  induction str with
  | nil => simp [strchr]
  | cons d str ih =>
    by_cases hd : d = c
    · simp [strchr, hd]
    · simp [strchr, hd, ih, Ne.symm hd]

theorem strchr_append {c : Char} {name : List Char} (hname : c ∉ name) (rest : List Char) :
    strchr c (name ++ c :: rest) = some (c :: rest) := by
  induction name with
  | nil => simp [strchr]
  | cons d name ih =>
    have hd : d ≠ c := fun h => hname (h ▸ mem_cons_self)
    simpa [strchr, hd] using ih fun h => hname (mem_cons_of_mem _ h)

theorem length_eq_of_sameKey {a b : List Char} (h : sameKey a b = true) : a.length = b.length := by
  simpa using congrArg List.length (of_decide_eq_true h)

/-- The text before the first `=` decides. -/
theorem argAt_append {name : List Char} (hname : '=' ∉ name) (key rest : List Char)
    (errno : Option Errno) : argAt key (name ++ '=' :: rest) errno =
      if sameKey name key then some (valueAt rest errno) else none := by
  have htake : (name ++ '=' :: rest).take ((name ++ '=' :: rest).length - ('=' :: rest).length) =
      name := by simp
  simp only [argAt, strchr_append hname, htake, tail_cons]
  by_cases hsame : sameKey name key
  · simp [hsame, length_eq_of_sameKey hsame]
  · simp [hsame]

theorem looksLike_append {name : List Char} (hname : '=' ∉ name) (key rest : List Char) :
    looksLike key (name ++ '=' :: rest) = sameKey name key := by
  simp [looksLike, strchr_append hname]

theorem argAt_of_not_mem {word : List Char} (h : '=' ∉ word) (key : List Char)
    (errno : Option Errno) : argAt key word errno = some ⟨-1, none, some .EINVAL⟩ := by
  simp [argAt, strchr_eq_none.mpr h]

theorem looksLike_of_not_mem {word : List Char} (h : '=' ∉ word) (key : List Char) :
    looksLike key word = false := by
  simp [looksLike, strchr_eq_none.mpr h]

theorem matchBraces_balanced {t : List Char} (ht : Balanced t) : ∀ (n : Nat) (rest : List Char),
    matchBraces (n + 1) (t ++ rest) = matchBraces (n + 1) rest := by
  induction ht with
  | nil => exact fun _ _ => rfl
  | char hopen hclose _ ih =>
    intro n rest
    simp [matchBraces, hopen, hclose, ih]
  | nest _ _ iht ihu =>
    intro n rest
    -- the inner text is read with one brace more, which its closing brace takes away again
    have hinner := iht (n + 1)
    simp only [cons_append, append_assoc, matchBraces, if_true]
    rw [hinner]
    simp [matchBraces, ihu]

theorem matchBraces_suffix : ∀ {str value_end : List Char} {n : Nat},
    matchBraces n str = some value_end → value_end <:+ str
  | c :: str, value_end, n, h => by
    have hlater : ∀ {m}, matchBraces m str = some value_end → value_end <:+ c :: str :=
      fun hm => (matchBraces_suffix hm).trans (suffix_cons c str)
    rw [matchBraces] at h
    split at h
    · exact hlater h
    · split at h
      · split at h
        · exact some.inj h ▸ suffix_rfl
        · exact hlater h
      · exact hlater h

theorem strchr_suffix {c : Char} : ∀ {str value_end : List Char}, strchr c str = some value_end → value_end <:+ str
  | d :: str, value_end, h => by
    rw [strchr] at h
    split at h
    · exact some.inj h ▸ suffix_rfl
    · exact (strchr_suffix h).trans (suffix_cons d str)

/-- The value of a pair is read off whatever follows the pair. -/
theorem valueAt_render {v : ArgValue} (hv : v.WellFormed) {rest : List Char}
    (hrest : ∀ c ∈ rest.head?, isBlank c) (errno : Option Errno) :
    valueAt (v.render ++ rest) errno = ⟨v.text.length, some (v.fromText ++ rest), errno⟩ := by
  cases v with
  | bare text =>
    obtain ⟨hplain, hhead⟩ := hv
    have htake : (text ++ rest).takeWhile (fun c => !isBlank c) = text := by
      rw [takeWhile_append_of_pos (by simpa using hplain)]
      cases rest with
      | nil => simp
      | cons c rest => simpa using hrest c rfl
    cases text with
    | nil =>
      -- an empty value: what comes next is a blank, which opens no quote
      cases rest with
      | nil => rfl
      | cons c rest =>
        have hc := hrest c rfl
        have hopen : c ≠ '{' := by rintro rfl; cases hc
        have hquote : c ≠ apostrophe := by rintro rfl; cases hc
        simp [ArgValue.render, ArgValue.text, ArgValue.fromText, valueAt, hopen, hquote, hc]
    | cons c text =>
      obtain ⟨hopen, hquote⟩ := hhead c rfl
      rw [cons_append] at htake
      simp [ArgValue.render, ArgValue.text, ArgValue.fromText, valueAt, hopen, hquote, htake]
  | braced text =>
    have hend : matchBraces 1 (text ++ '}' :: rest) = some ('}' :: rest) := by
      rw [matchBraces_balanced hv 0]
      simp [matchBraces]
    simp [ArgValue.render, ArgValue.text, ArgValue.fromText, valueAt, match_quote, hend]
  | quoted text =>
    have hne : apostrophe ≠ '{' := by decide
    have hend : strchr apostrophe (text ++ apostrophe :: rest) = some (apostrophe :: rest) :=
      strchr_append hv rest
    simp [ArgValue.render, ArgValue.text, ArgValue.fromText, valueAt, hne, hend]

theorem valueAt_place {value place : List Char} {errno : Option Errno}
    (h : (valueAt value errno).value_out = some place) :
    place = value ∨ ∃ quote, value = quote :: place ∧ quote ≠ '=' := by
  cases value with
  | nil => exact Or.inl (some.inj h).symm
  | cons c rest =>
    simp only [valueAt] at h
    split at h
    · next hc =>
      subst hc
      cases hmatch : match_quote ('{' :: rest) with
      | none => simp [hmatch] at h
      | some value_end =>
        simp only [hmatch, Option.some.injEq] at h
        exact Or.inr ⟨'{', by rw [h], by decide⟩
    · split at h
      · next hc =>
        subst hc
        refine Or.inr ⟨apostrophe, ?_, by decide⟩
        cases hmatch : strchr apostrophe rest <;> simp only [hmatch, Option.some.injEq] at h <;> rw [h]
      · exact Or.inl (some.inj h).symm

theorem valueAt_retval_neg {value : List Char} {errno : Option Errno} :
    (valueAt value errno).retval < 0 ↔ Unclosed value := by
  cases value with
  | nil => simp [valueAt, Unclosed]
  | cons c rest =>
    by_cases hopen : c = '{'
    · subst hopen
      have hne : '{' ≠ apostrophe := by decide
      cases hmatch : matchBraces 1 rest with
      | none => simp [valueAt, match_quote, hmatch, Unclosed, hne]
      | some value_end =>
        have hlen := (matchBraces_suffix hmatch).length_le
        simp [valueAt, match_quote, hmatch, Unclosed, hne]
        omega
    · by_cases hquote : c = apostrophe
      · subst hquote
        cases hmatch : strchr apostrophe rest with
        | none => simp [valueAt, hopen, hmatch, Unclosed, strchr_eq_none.mp hmatch]
        | some value_end =>
          have hlen := (strchr_suffix hmatch).length_le
          have hmem : apostrophe ∈ rest := by
            by_contra hnot
            rw [strchr_eq_none.mpr hnot] at hmatch
            cases hmatch
          simp [valueAt, hopen, hmatch, Unclosed, hmem]
          omega
      · simp [valueAt, hopen, hquote, Unclosed]

/-! ## Section 5: The scan of rendered arguments -/

/-- The words inside the values before the first pair with the key that read as a pair with it. -/
def decoys (key : List Char) : List (Pair × List Char) → List (List Char)
  | [] => []
  | (p, sep) :: items =>
    if sameKey p.key key then []
    else (wordsIn false p.value.render (sep ++ render items)).filter (looksLike key) ++ decoys key items

theorem render_cons (p : Pair) (sep : List Char) (items : List (Pair × List Char)) :
    render ((p, sep) :: items) = p.key ++ '=' :: (p.value.render ++ (sep ++ render items)) := by
  simp [render, Pair.render]

theorem wordsIn_render {p : Pair} {sep : List Char} {items : List (Pair × List Char)}
    (hsep : Separated ((p, sep) :: items)) :
    wordsIn true (render ((p, sep) :: items)) [] = render ((p, sep) :: items) ::
        (wordsIn false p.value.render (sep ++ render items) ++ wordsIn true (render items) []) := by
  obtain ⟨hblank, hne, -⟩ := hsep
  have hkey : ∀ c ∈ p.key ++ ['='], ¬ isBlank c := by
    intro c hc
    rcases mem_append.mp hc with hc | hc
    · exact (p.key_plain c hc).1
    · rw [mem_singleton.mp hc]
      decide
  have hword : ∀ rest, wordsIn true (p.key ++ '=' :: rest) [] =
      (p.key ++ '=' :: rest) :: wordsIn false rest [] := by
    intro rest
    have hsplit : p.key ++ '=' :: rest = (p.key ++ ['=']) ++ rest := by simp
    rw [hsplit]
    cases hcons : p.key ++ ['='] with
    | nil => simp at hcons
    | cons c name =>
      rw [hcons] at hkey
      have hname : ∀ c ∈ name, ¬ isBlank c := fun c hc => hkey c (mem_cons_of_mem _ hc)
      simp [wordsIn, hkey c mem_cons_self, wordsIn_append, wordsIn_plain hname, (wordsIn_plain hname []).2]
  have hrest : wordsIn (endsBlank (endsBlank false p.value.render) sep) (render items) [] =
      wordsIn true (render items) [] := by
    cases items with
    | nil => rfl
    | cons item items => rw [(wordsIn_blank hblank [] _).2 (hne (cons_ne_nil _ _))]
  rw [render_cons, hword, wordsIn_append, wordsIn_append, (wordsIn_blank hblank _ _).1,
    nil_append, hrest, append_nil]

/-- What a scan ends with: it stops at the first decoy, else it finds the first pair. -/
def Outcome (key : List Char) (decoys : List (List Char)) (first : Option (ArgValue × List Char))
    (r : ArgGet) : Prop :=
  match decoys, first with
  | word :: _, _ => ∃ errno, argAt key word errno = some r
  | [], some (value, place) => r.retval = value.text.length ∧ r.value_out = some place
  | [], none => r.retval < 0

/-- Words inside of a value are passed over as long as they do not read as the key. -/
theorem outcome_inner {key : List Char} {words words' ds : List (List Char)}
    {first : Option (ArgValue × List Char)} (hlater : ∀ errno, Outcome key ds first (scan key words' errno))
    (hlast : ∀ word ∈ words, '=' ∉ word → ds = [] ∧ first = none)
    (hsuffix : words.Pairwise fun word later => later <:+ word) : ∀ errno,
    Outcome key (words.filter (looksLike key) ++ ds) first (scan key (words ++ words') errno) := by
  induction words with
  | nil => exact hlater
  | cons word words ih =>
    intro errno
    obtain ⟨hhere, hsuffix⟩ := pairwise_cons.mp hsuffix
    have ih := ih (fun w hw => hlast w (mem_cons_of_mem _ hw)) hsuffix (some .ESRCH)
    by_cases heq : '=' ∈ word
    · obtain ⟨name, rest, hword, hname⟩ := eq_append_cons_of_mem heq
      have hlooks := looksLike_append hname key rest
      have hat := argAt_append hname key rest errno
      rw [← hword] at hlooks hat
      by_cases hsame : sameKey name key
      · rw [if_pos hsame] at hat
        simp only [scan, cons_append, hat, hlooks, hsame, filter_cons, if_true, getD_some]
        exact ⟨errno, hat⟩
      · rw [if_neg hsame] at hat
        simpa [scan, hat, hlooks, hsame] using ih
    · -- no `=` is left, so that neither a pair nor a decoy is behind this word
      obtain ⟨rfl, rfl⟩ := hlast word mem_cons_self heq
      have hnone : (word :: words).filter (looksLike key) = [] := by
        rw [filter_eq_nil_iff]
        intro w hw
        have hw : w <:+ word := by
          rcases mem_cons.mp hw with rfl | hw
          · exact suffix_rfl
          · exact hhere w hw
        simp [looksLike_of_not_mem (fun h => heq (hw.subset h))]
      rw [hnone]
      simp [scan, argAt_of_not_mem heq, Outcome]

theorem head?_sep_render {p : Pair} {sep : List Char} {items : List (Pair × List Char)}
    (hsep : Separated ((p, sep) :: items)) : ∀ c ∈ (sep ++ render items).head?, isBlank c := by
  obtain ⟨hblank, hne, -⟩ := hsep
  cases sep with
  | nil =>
    have hnil : items = [] := by
      by_contra h
      exact hne h rfl
    simp [hnil, render]
  | cons d sep =>
    intro c hc
    obtain rfl : d = c := by simpa using hc
    exact hblank d mem_cons_self

theorem outcome_items (key : List Char) : ∀ {items : List (Pair × List Char)} (_ : Separated items)
    (errno : Option Errno), Outcome key (decoys key items) (firstPair key items)
      (scan key (wordsIn true (render items) []) errno) := by
  intro items
  induction items with
  | nil =>
    intro _ errno
    simp [decoys, firstPair, Outcome, render, wordsIn, scan]
  | cons item items ih =>
    intro hsep errno
    obtain ⟨p, sep⟩ := item
    have hname : '=' ∉ p.key := fun h => (p.key_plain _ h).2 rfl
    rw [wordsIn_render hsep, scan, render_cons, argAt_append hname,
      valueAt_render p.value_ok (head?_sep_render hsep)]
    by_cases hsame : sameKey p.key key
    · simp [decoys, firstPair, hsame, Outcome]
    · simp only [decoys, firstPair, hsame, if_false, Bool.false_eq_true, getD_none]
      refine outcome_inner (ih hsep.2.2) (fun word hword heq => ?_) (wordsIn_pairwise _ _ _) _
      cases items with
      | nil => exact ⟨rfl, rfl⟩
      | cons item items =>
        obtain ⟨front, -, -, rfl⟩ := mem_wordsIn hword
        exact absurd (by simp [render, Pair.render]) heq

/-! ## Section 6: When the right value is found -/

theorem get_outcome (a : Arguments) (key : List Char) :
    Outcome key (decoys key a.items) (firstPair key a.items) (event_arg_get a.text key) := by
  have hlead : ∀ errno, Outcome key (decoys key a.items) (firstPair key a.items)
      (scan key (wordsIn true a.text []) errno) := by
    intro errno
    have hend : endsBlank true a.lead = true := by
      by_cases hnil : a.lead = []
      · rw [hnil]
        rfl
      · exact (wordsIn_blank a.lead_blank [] true).2 hnil
    rw [Arguments.text, wordsIn_append, (wordsIn_blank a.lead_blank _ true).1, hend, nil_append]
    exact outcome_items key a.separated errno
  rw [event_arg_get_eq_scan]
  exact hlead none

theorem firstPair_eq_some {key place : List Char} {value : ArgValue} :
    ∀ {items : List (Pair × List Char)}, firstPair key items = some (value, place) →
    ∃ front name rest, render items = front ++ name ++ '=' :: (value.render ++ rest) ∧
      place = value.fromText ++ rest ∧ sameKey name key ∧
      ∀ word ∈ decoys key items, ∃ front, front ≠ [] ∧ word = front ++ name ++ '=' :: (value.render ++ rest)
  | (p, sep) :: items, h => by
    rw [firstPair] at h
    split at h
    · next hsame =>
      obtain ⟨rfl, rfl⟩ := Prod.mk.inj (some.inj h)
      exact ⟨[], p.key, sep ++ render items, by rw [render_cons, nil_append], rfl, hsame, by simp [decoys, hsame]⟩
    · next hsame =>
      obtain ⟨front, name, rest, hrender, hplace, hname, hdecoys⟩ := firstPair_eq_some h
      refine ⟨p.key ++ '=' :: (p.value.render ++ sep) ++ front, name, rest, ?_, hplace, hname,
        fun word hword => ?_⟩
      · rw [render_cons, hrender]
        simp
      · simp only [decoys, hsame, if_false, Bool.false_eq_true, mem_append, mem_filter] at hword
        rcases hword with ⟨hword, -⟩ | hword
        · obtain ⟨inner, hinner, -, rfl⟩ := mem_wordsIn hword
          exact ⟨inner ++ sep ++ front, by simp [hinner], by rw [hrender]; simp⟩
        · exact hdecoys word hword

/-- At a decoy something else is found than the right value. -/
theorem decoy_place_ne {key name front word value place : List Char} {v : ArgValue} {rest : List Char}
    (hfront : front ≠ []) (hword : word = front ++ name ++ '=' :: (v.render ++ rest))
    (hlooks : word = key ++ '=' :: value) (hlen : key.length = name.length)
    (hplace : place = v.fromText ++ rest) (errno : Option Errno) :
    (valueAt value errno).value_out ≠ some place := by
  intro h
  have hright : v.render ++ rest = place ∨ ∃ quote, v.render ++ rest = quote :: place := by
    subst hplace
    cases v with
    | bare text => exact Or.inl rfl
    | braced text => exact Or.inr ⟨'{', by simp [ArgValue.render, ArgValue.fromText]⟩
    | quoted text => exact Or.inr ⟨apostrophe, by simp [ArgValue.render, ArgValue.fromText]⟩
  have hlenWord := congrArg List.length (hlooks.symm.trans hword)
  have hpos := length_pos_iff.mpr hfront
  simp only [length_append, length_cons] at hlenWord
  -- what is read at the decoy is longer than the right text by what is in front of the pair, so the
  -- two places are the same only if the decoy has a quote where the pair has its `=`
  rcases valueAt_place h with rfl | ⟨quote, rfl, hquote⟩
  · have hlenRight : place.length ≤ (v.render ++ rest).length := by
      rcases hright with hr | ⟨q, hr⟩ <;> simp [hr]
    rw [length_append] at hlenRight
    rcases hright with hr | ⟨q, hr⟩ <;>
      · have := congrArg List.length hr
        simp only [length_append, length_cons] at this
        omega
  · rcases hright with hr | ⟨q, hr⟩
    · have hlenRight := congrArg List.length hr
      simp only [length_append, length_cons] at hlenRight hlenWord
      have hone : front.length = 1 := by omega
      have hdrop := congrArg (List.drop (key.length + 1)) (hlooks.symm.trans hword)
      rw [hr] at hdrop
      have hl : (key ++ '=' :: quote :: place).drop (key.length + 1) = quote :: place := by simp
      have hr' : (front ++ name ++ '=' :: place).drop (key.length + 1) = '=' :: place := by
        have hlen' : (front ++ name).length = key.length + 1 := by
          simp only [length_append]
          omega
        rw [← hlen', drop_left]
      rw [hl, hr'] at hdrop
      exact hquote (List.cons.inj hdrop).1
    · have hlenRight := congrArg List.length hr
      simp only [length_append, length_cons] at hlenRight hlenWord
      omega

theorem mem_decoys_looksLike {key word : List Char} : ∀ {items : List (Pair × List Char)},
    word ∈ decoys key items → looksLike key word = true
  | (p, sep) :: items, h => by
    rw [decoys] at h
    split at h
    · cases h
    · rcases mem_append.mp h with h | h
      · exact (mem_filter.mp h).2
      · exact mem_decoys_looksLike h

/-- A copy of what was found. -/
theorem dup_of_get {malloc : Nat → Bool} {args key place : List Char} {n : Nat}
    (hret : (event_arg_get args key).retval = n)
    (hplace : (event_arg_get args key).value_out = some place) (hmalloc : malloc (n + 1) = true) :
    (event_arg_dup malloc args key).retval = n ∧
      (event_arg_dup malloc args key).value_out = some (place.take n) := by
  unfold event_arg_dup
  generalize event_arg_get args key = r at hret hplace
  obtain ⟨retval, value, errno⟩ := r
  subst hret hplace
  simp [hmalloc]

theorem dup_of_failed {malloc : Nat → Bool} {args key : List Char} (hret : (event_arg_get args key).retval < 0) :
    (event_arg_dup malloc args key).retval < 0 ∧ (event_arg_dup malloc args key).value_out = none := by
  unfold event_arg_dup
  generalize event_arg_get args key = r at hret
  obtain ⟨retval, value, errno⟩ := r
  cases retval with
  | ofNat n => exact absurd hret (by simp)
  | negSucc n => exact ⟨hret, rfl⟩

/-- The value after the first `=` of a word. -/
def valueOf (word : List Char) : List Char := (word.dropWhile (· ≠ '=')).tail

theorem event_arg_get_correct_iff (a : Arguments) (key : List Char) :
    Correct a key ↔ ∀ word ∈ (decoys key a.items).head?,
      firstPair key a.items = none ∧ Unclosed (valueOf word) := by
  have hout := get_outcome a key
  cases hdecoys : decoys key a.items with
  | nil =>
    refine iff_of_true ?_ (by simp)
    rw [hdecoys] at hout
    unfold Correct
    cases hfirst : firstPair key a.items with
    | none =>
      rw [hfirst] at hout
      exact ⟨hout, fun _ => dup_of_failed hout⟩
    | some found =>
      obtain ⟨value, place⟩ := found
      rw [hfirst] at hout
      refine ⟨hout.1, hout.2, fun malloc hmalloc => ?_⟩
      have hdup := dup_of_get hout.1 hout.2 hmalloc
      obtain ⟨_, _, rest, _, hplace, _⟩ := firstPair_eq_some hfirst
      have htake : place.take value.text.length = value.text := by
        rw [hplace]
        cases value <;> simp [ArgValue.text, ArgValue.fromText]
      rwa [htake] at hdup
  | cons word words =>
    rw [hdecoys] at hout
    have hword : word ∈ decoys key a.items := by rw [hdecoys]; exact mem_cons_self
    -- the scan stops at the decoy
    obtain ⟨name, rest, hsplit, hname, hsame⟩ : ∃ name rest, word = name ++ '=' :: rest ∧
        '=' ∉ name ∧ sameKey name key = true := by
      have hlooks := mem_decoys_looksLike hword
      have hmem : '=' ∈ word := by
        by_contra hnot
        rw [looksLike_of_not_mem hnot] at hlooks
        cases hlooks
      obtain ⟨name, rest, hsplit, hname⟩ := eq_append_cons_of_mem hmem
      refine ⟨name, rest, hsplit, hname, ?_⟩
      rwa [hsplit, looksLike_append hname] at hlooks
    obtain ⟨errno, hget⟩ : ∃ errno, event_arg_get a.text key = valueAt rest errno := by
      obtain ⟨errno, hat⟩ := hout
      refine ⟨errno, ?_⟩
      rw [hsplit, argAt_append hname, if_pos hsame] at hat
      exact (some.inj hat).symm
    have hvalue : valueOf word = rest := by
      have hskip : word.dropWhile (· ≠ '=') = '=' :: rest := by
        rw [hsplit, dropWhile_append_of_pos (by
          intro c hc
          simpa using fun h : c = '=' => hname (h ▸ hc))]
        simp
      rw [valueOf, hskip, tail_cons]
    simp only [List.head?_cons, mem_def, Option.some.injEq, forall_eq', hvalue]
    unfold Correct
    cases hfirst : firstPair key a.items with
    | none =>
      rw [hget, ← valueAt_retval_neg]
      refine ⟨fun h => ⟨rfl, h.1⟩, fun h => ⟨h.2, fun _ => dup_of_failed (hget ▸ h.2)⟩⟩
    | some found =>
      obtain ⟨value, place⟩ := found
      refine iff_of_false (fun h => ?_) (fun h => by cases h.1)
      obtain ⟨_, name', rest', _, hplace, hsame', hall⟩ := firstPair_eq_some hfirst
      obtain ⟨front, hfront, hfull⟩ := hall word hword
      refine decoy_place_ne hfront hfull hsplit ?_ hplace errno (hget ▸ h.2.1)
      exact (length_eq_of_sameKey hsame).trans (length_eq_of_sameKey hsame').symm

/-- `A={x B=1} B=2` -/
def twoPairs : Arguments where
  lead := []
  items :=
    [(⟨['A'], .braced ['x', ' ', 'B', '=', '1'], by simp [isBlank], by
        show Balanced _
        repeat' first | exact .nil | refine .char (by decide) (by decide) ?_⟩, [' ']),
      (⟨['B'], .bare ['2'], by simp [isBlank], by simp [ArgValue.WellFormed, isBlank, apostrophe]⟩, [])]
  lead_blank := nofun
  separated := by simp [Separated, isBlank]

theorem event_arg_get_reads_inside : firstPair ['B'] twoPairs.items = some (.bare ['2'], ['2']) ∧
    event_arg_get twoPairs.text ['B'] = ⟨2, some ['1', '}', ' ', 'B', '=', '2'], some .ESRCH⟩ ∧
    ¬ Correct twoPairs ['B'] := by
  have hget : event_arg_get twoPairs.text ['B'] = ⟨2, some ['1', '}', ' ', 'B', '=', '2'], some .ESRCH⟩ := by
    rw [event_arg_get_eq_scan]
    decide
  refine ⟨rfl, hget, fun h => ?_⟩
  have hretval : (event_arg_get twoPairs.text ['B']).retval = 1 := h.1
  rw [hget] at hretval
  cases hretval

end Emulab.Event
