import Emulab.Lib.Escape
import Mathlib.Data.List.DropRight

/-! # The names of GENI objects

  A URN `urn:publicid:IDN+authority+type+id` names an object. The id is a public
  identifier that has been transcribed to the characters of a URN, and the
  functions below are given by the patterns that a URN and its parts are
  matched with.
-/

namespace Emulab.Protogeni

open Escape

abbrev Str := List Char

/-! ## Section 1: Patterns -/

def inRange (lo hi c : Char) : Bool := lo.toNat ≤ c.toNat ∧ c.toNat ≤ hi.toNat

/-- `[A-Za-z0-9]` -/
def alnum (c : Char) : Bool := inRange 'A' 'Z' c || inRange 'a' 'z' c || inRange '0' '9' c

/-- `[0-9A-Fa-f]` -/
def isHex (c : Char) : Bool := inRange '0' '9' c || inRange 'A' 'F' c || inRange 'a' 'f' c

/-- `[ \t\r\n]` -/
def isSpace (c : Char) : Bool := c ∈ [' ', '\t', '\r', '\n']

/-- `tr/A-Z/a-z/` for one character. -/
def lowerChar (c : Char) : Char := if inRange 'A' 'Z' c then Char.ofNat (c.toNat + 32) else c

/-- `tr/A-Z/a-z/` -/
def lower (s : Str) : Str := s.map lowerChar

/-- The characters that `\w` matches: those of ASCII, and of the others whichever Perl counts as word
    characters in a string. -/
structure WordClass where
  mem : Char → Bool
  ascii : ∀ c : Char, c.toNat < 128 → mem c = (alnum c || c = '_')

/-- What is before a `$`: the string, or the string without a newline at its end. -/
def beforeEnd (p : Str → Bool) (s : Str) : Bool :=
  p s || (s.getLast? = some '\n' && p s.dropLast)

/-- `^[...]+$` -/
def only (cls : Char → Bool) (s : Str) : Bool := beforeEnd (fun s => s ≠ [] && s.all cls) s

/-- What `(.*)$` captures. -/
def line (s : Str) : Option Str :=
  if '\n' ∉ s then some s
  else if s.getLast? = some '\n' ∧ '\n' ∉ s.dropLast then some s.dropLast
  else none

/-- `^([^+]*)\+(.*)`, where the rest may have newlines. -/
def cut : Str → Option (Str × Str)
  | [] => none
  | c :: s => if c = '+' then some ([], s) else (cut s).map fun p => (c :: p.1, p.2)

/-! ## Section 2: Which URNs are valid -/

/-- `hex` of a digit. -/
def hexDigit (c : Char) : Nat :=
  if inRange '0' '9' c then c.toNat - 48
  else if inRange 'A' 'F' c then c.toNat - 55
  else c.toNat - 87

/-- The values of %-encoded sequences that are transformed back. -/
def unreserved (val : Nat) : Bool :=
  val = 0x2D || val = 0x2E || (0x30 ≤ val && val ≤ 0x39) || (0x41 ≤ val && val ≤ 0x5A) ||
    val = 0x5F || (0x61 ≤ val && val ≤ 0x7A) || val = 0x7E

def unescapeOctet (a b : Char) : Str :=
  let val := 16 * hexDigit a + hexDigit b
  if unreserved val then [Char.ofNat val] else ['%', a, b]

/-- The loop of `Unescape`, which goes on as long as the first `%` begins an escape and the rest has
    no newline but at its end. -/
def unescapeLoop : Nat → Str → Str
  | 0, uri => uri
  | n + 1, uri =>
    match uri.span (· ≠ '%') with
    | (before, _ :: a :: b :: rest) =>
      if isHex a && isHex b then
        match line rest with
        | some rest => before ++ unescapeOctet a b ++ unescapeLoop n rest
        | none => uri
      else uri
    | _ => uri

def Unescape (uri : Str) : Str := unescapeLoop uri.length uri

/-- The characters of an authority, before and after the first colon. -/
def authorityChar (sub : Bool) (c : Char) : Bool := alnum c || c = '.' || c = '-' || (sub && c = '_')

/-- `[A-Za-z0-9.-]+(?::[A-Za-z0-9._-]+)*`; `sub` says that there was a colon, and `seen` that there
    was a character since. -/
def matchAuthority (sub seen : Bool) : Str → Bool
  | [] => seen
  | c :: s =>
    if c = ':' then seen && matchAuthority true false s
    else authorityChar sub c && matchAuthority sub true s

/-- `[-!$()*,./0-9:=@A-Z_a-z]` -/
def idChar (c : Char) : Bool := alnum c || c ∈ ['-', '!', '$', '(', ')', '*', ',', '.', '/', ':', '=', '@', '_']

/-- `(?:[-!$()*,./0-9:=@A-Z_a-z]|(?:%[0-9A-Fa-f][0-9A-Fa-f]))*` -/
def matchId : Str → Bool
  | '%' :: a :: b :: s => isHex a && isHex b && matchId s
  | c :: s => idChar c && matchId s
  | [] => true

/-- `[uU][rR][nN]:[pP][uU][bB][lL][iI][cC][iI][dD]:IDN` -/
def matchNid (s : Str) : Bool :=
  lower (s.take 13) = "urn:publicid:".toList && s.drop 13 = "IDN".toList

section

variable (W : WordClass)

/-- The pattern of a URN. None of the parts before the id has a `+`. -/
def matchUrn (s : Str) : Bool :=
  match cut s with
  | none => false
  | some (nid, s) =>
    match cut s with
    | none => false
    | some (authority, s) =>
      match cut s with
      | none => false
      | some (type, id) =>
        matchNid nid && matchAuthority false false authority && (type ≠ [] && type.all W.mem) &&
          beforeEnd (fun id => id ≠ [] && matchId id) id

def IsValid (hrn : Str) : Bool :=
  if ['%', '0', '0'] <:+: hrn then false else matchUrn W (Unescape hrn)

/-! ## Section 3: Transcription -/

/-- Collapse each run of spaces to one space; `prev` says that a space has been written. -/
def collapse (prev : Bool) : Str → Str
  | [] => []
  | c :: s =>
    if isSpace c then (if prev then collapse true s else ' ' :: collapse true s)
    else c :: collapse false s

def normalSpace (str : Str) : Str :=
  let str := str.dropWhile isSpace
  let str := str.rdropWhile isSpace
  collapse false str

def Transcribe (str : Str) : Str :=
  let str := normalSpace str
  let str := escape '%' '2' '5' str
  let str := escape '#' '2' '3' str
  let str := escape '\'' '2' '7' str
  let str := escape '+' '2' 'B' str
  let str := escape ';' '3' 'B' str
  let str := escape '?' '3' 'F' str
  let str := replace ' ' '+' str
  let str := pair ':' ';' str
  let str := escape ':' '3' 'A' str
  let str := pair '/' ':' str
  escape '/' '2' 'F' str

/-- The code of an escape, whatever the case of its letters. -/
def code (hi lo a b : Char) : Bool := lowerChar a = lowerChar hi && lowerChar b = lowerChar lo

def Untranscribe (str : Str) : Str :=
  let str := unescape (code '2' 'F') '/' str
  let str := unpair '/' ':' str
  let str := unescape (code '3' 'A') ':' str
  let str := unpair ':' ';' str
  let str := replace '+' ' ' str
  let str := unescape (code '3' 'F') '?' str
  let str := unescape (code '3' 'B') ';' str
  let str := unescape (code '2' 'B') '+' str
  let str := unescape (code '2' '7') '\'' str
  let str := unescape (code '2' '3') '#' str
  unescape (code '2' '5') '%' str

/-! ## Section 4: Parsing and generating -/

/-- `^[^+]*\+([^+]+)\+([^+]+)\+(.+)$` -/
def urnParts (s : Str) : Option (Str × Str × Str) := do
  let (_, s) ← cut s
  let (authority, s) ← cut s
  let (type, s) ← cut s
  let id ← line s
  if authority = [] ∨ type = [] ∨ id = [] then none else some (authority, type, id)

/-- The authority, the type and the id of a URN. -/
def Parse (hrn : Str) : Option (Str × Str × Str) :=
  if IsValid W hrn then
    (urnParts (Unescape hrn)).map fun p => (p.1, p.2.1, Untranscribe p.2.2)
  else
    none

/-- `[-.0-9A-Za-z:]` -/
def generateAuthorityChar (c : Char) : Bool := alnum c || c ∈ ['-', '.', ':']

/-- `[-.0-9A-Z_a-z~]` -/
def generateTypeChar (c : Char) : Bool := alnum c || c ∈ ['-', '.', '_', '~']

/-- The text of the variable `$%`, the number of the current page of output. -/
def formatPageNumber : Str := ['0']

/-- `[-\t\n\r !#$%'()*+,./0-9:;=?\@A-Z_a-z]`. Perl reads the variable `$%` in the pattern, so that
    neither `$` nor `%` is in it. -/
def generateIdChar (c : Char) : Bool :=
  alnum c || c ∈ formatPageNumber || c ∈ ['-', '\t', '\n', '\r', ' ', '!', '#', '\'', '(', ')', '*', '+',
    ',', '.', '/', ':', ';', '=', '?', '@', '_']

def Generate (authority type id : Str) : Option Str :=
  let authority := lower authority
  if !only generateAuthorityChar authority then none
  else if !only generateTypeChar type then none
  else if !only generateIdChar id then none
  else some ("urn:publicid:IDN".toList ++ '+' :: authority ++ '+' :: type ++ '+' :: Transcribe id)

def Normalise (hrn : Str) : Option Str :=
  if IsValid W hrn then
    (Parse W hrn).bind fun p => Generate p.1 p.2.1 p.2.2
  else
    none

/-- Two URNs are compared by `eq`, which takes an undefined string for an empty one. -/
def Equal (hrn0 hrn1 : Str) : Option Bool :=
  if IsValid W hrn0 && IsValid W hrn1 then
    some ((Normalise W hrn0).getD [] = (Normalise W hrn1).getD [])
  else
    none

def GenerateInterface (authority node interface : Str) : Option Str :=
  Generate authority "interface".toList (node ++ "//".toList ++ interface)

/-- `(.*)//(.*)`, from the last two slashes of a string without newlines. -/
def lastSlashes : Str → Option (Str × Str)
  | [] => none
  | c :: s =>
    match lastSlashes s with
    | some p => some (c :: p.1, p.2)
    | none => if c = '/' ∧ s.head? = some '/' then some ([], s.tail) else none

def ParseInterface (urn : Str) : Option (Str × Str × Str) :=
  match Parse W urn with
  | none => none
  | some (authority, type, id) =>
    if type ≠ "interface".toList then none
    else (lastSlashes id).map fun p => (authority, p.1, p.2)

def GenerateImage (authority pid os : Str) (vers : Option Str) : Option Str :=
  match vers with
  | some vers => Generate authority "image".toList (pid ++ "//".toList ++ os ++ "//".toList ++ vers)
  | none => Generate authority "image".toList (pid ++ "//".toList ++ os)

/-- `([^/]+)//([^/]+)(//(\d+))?` at the beginning of a string. -/
def matchImageHere (s : Str) : Option (Str × Str × Option Str) :=
  match s.span (· ≠ '/') with
  | (ospid, '/' :: '/' :: s) =>
    match s.span (· ≠ '/') with
    | (os, s) =>
      if ospid = [] ∨ os = [] then none
      else
        match s with
        | '/' :: '/' :: s =>
          let vers := s.takeWhile (inRange '0' '9')
          some (ospid, os, if vers = [] then none else some vers)
        | _ => some (ospid, os, none)
  | _ => none

/-- The pattern is found where it matches first. -/
def matchImage : Str → Option (Str × Str × Option Str)
  | [] => none
  | c :: s => (matchImageHere (c :: s)).or (matchImage s)

def ParseImage (urn : Str) : Option (Str × Str × Str × Option Str) :=
  match Parse W urn with
  | none => none
  | some (authority, type, id) =>
    if type ≠ "image".toList then none
    else (matchImage id).map fun p => (authority, p.1, p.2.1, p.2.2)

end

end Emulab.Protogeni
