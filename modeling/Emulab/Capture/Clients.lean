import Mathlib.Data.Finset.Card
import Mathlib.Data.List.TakeWhile
import Emulab.Lib.Machine

/-! # Clients of the console server

  Capture serves the console of a machine to one client at a time. A client sends
  a key when it connects, directly or in an SSL session that it asks for, and it is
  let in if this is the secret key that capture has written for the console's user.
-/

namespace Emulab.Capture

open List Option

/-! ## Section 1: Keys -/

/-- The other side is let in. -/
abbrev CAPOK : Nat := 0

/-- Somebody else is connected. -/
abbrev CAPBUSY : Nat := 1

abbrev CAPNOPERM : Nat := 2

structure SecretKey where
  /-- The length of the key string, as its sender says. -/
  keylen : Int
  /-- The string: the bytes from its beginning on, up to its terminator and further. -/
  key : List UInt8
deriving DecidableEq

/-- The size of a key message: the length and 256 bytes for the string. -/
abbrev sizeofKey : Int := 260

/-- The number of random bytes in a key. -/
abbrev DEFAULTKEYLEN : Nat := 32

/-- The bytes of a string before its terminator. -/
def cstring (s : List UInt8) : List UInt8 := s.takeWhile (· ≠ 0)

def strlen (s : List UInt8) : Nat := (cstring s).length

/-- Compare at most `n` bytes of two strings: 0 if they are the same. -/
def strncmp : List UInt8 → List UInt8 → Nat → Int
  | _, _, 0 => 0
  | as, bs, n + 1 =>
    let a := as.headD 0
    let b := bs.headD 0
    if a ≠ b then a.toNat - b.toNat
    else if a = 0 then 0
    else strncmp as.tail bs.tail n

def ascii (s : String) : List UInt8 := s.toList.map fun c => c.toNat.toUInt8

/-- Print a byte in hexadecimal. -/
def hex (b : UInt8) : List UInt8 := (Nat.toDigits 16 b.toNat).map fun c => c.toNat.toUInt8

/-- Print random bytes behind one another, from the beginning of the string on. -/
def createkey (old : SecretKey) (buf : List UInt8) : SecretKey :=
  let key := buf.foldl (fun key b =>
    let len := strlen key
    key.take len ++ hex b ++ 0 :: key.drop (len + (hex b).length + 1)) (0 :: old.key.tail)
  ⟨strlen key, key⟩

/-! ## Section 2: The server -/

/-- The descriptors that capture opens when it starts. -/
structure Config where
  /-- The socket that clients connect to. -/
  sockfd : Int
  devfd : Int
  /-- Whether output is kept for the next client. -/
  docircbuf : Bool
  /-- Standard input has been opened before. -/
  sockfd_pos : 0 < sockfd
  devfd_pos : 0 < devfd

structure State where
  tipactive : Bool
  ptyfd : Int
  /-- The SSL session in use, by its descriptor. -/
  sslCon : Option Int
  /-- The descriptors that are waited for. -/
  sfds : Finset Int
  secretkey : SecretKey
deriving DecidableEq

/-- The server after its start. -/
def start (cfg : Config) (buf : List UInt8) : State where
  tipactive := false
  ptyfd := -1
  sslCon := none
  sfds := {cfg.sockfd, cfg.devfd}
  secretkey := createkey ⟨0, List.replicate 256 0⟩ buf

/-- What a call has returned, and whether an error is one to go on after (the other end is blocked). -/
structure Returned where
  /-- The number of bytes, or a negative number. -/
  ret : Int
  /-- EIO or EAGAIN. -/
  again : Bool
deriving DecidableEq

/-- Send data to the client: the calls that the loop makes return `writes`. It ends
    when all data has been written. -/
def sendToClient (s : State) : List Returned → Option State
  | [] => some s
  | w :: writes =>
    if !s.tipactive then some s
    else
      let i := if s.sslCon ≠ none ∧ w.ret < 0 then 0 else w.ret
      if i < 0 then if w.again then some s else none
      else if i = 0 then some { s with tipactive := false }
      else sendToClient s writes

/-- Where an answer is written to. -/
inductive Channel
  | plain (fd : Int)
  | ssl (session : Int)
deriving DecidableEq

/-- Somebody connects: what they send, and what the calls return. -/
structure Connection where
  newfd : Int
  /-- How many bytes of the first message were read. -/
  cc : Int
  key : SecretKey
  /-- Setting up the SSL session has succeeded. -/
  accepted : Bool
  /-- How many bytes of the message in the SSL session were read. -/
  sslcc : Int
  /-- The message in the SSL session. -/
  sslkey : SecretKey
  /-- How many bytes of the answer were written. -/
  written : Int
  /-- The new descriptor could be made non-blocking. -/
  nonblock : Bool
  /-- The writes of the two parts of the circular buffer. -/
  dump : List Returned × List Returned
  /-- The line could not be set to the speed asked for. -/
  opterr : Bool
deriving DecidableEq

structure Outcome where
  state : State
  /-- 0 if the connection was taken, 1 if it was refused. -/
  ret : Nat
  /-- The answer that was sent or tried. -/
  answer : Option (Channel × Nat)
deriving DecidableEq

/-- Give the client the output that has been kept for it. -/
def dumpcircbuf (cfg : Config) (s : State) (dump : List Returned × List Returned) : Option State :=
  if cfg.docircbuf then (sendToClient s dump.1).bind fun s => sendToClient s dump.2 else some s

/-- The answer goes through the SSL session, if there is one. -/
def channel (s : State) : Channel :=
  match s.sslCon with
  | some session => .ssl session
  | none => .plain s.ptyfd

/-- The key message has the size of one, and its key is right. -/
def checks (secret : SecretKey) (cc : Int) (key : SecretKey) : Bool :=
  !(cc ≠ sizeofKey || key.keylen % 2 ^ 64 ≠ strlen key.key ||
    strncmp secret.key key.key (key.keylen % 2 ^ 64).toNat ≠ 0)

/-- What is done with the key message when it has been read. -/
def verify (cfg : Config) (s : State) (c : Connection) (cc : Int) (key : SecretKey) : Option Outcome :=
  if s.tipactive then some ⟨s, 1, some (.plain c.newfd, CAPBUSY)⟩
  else if !checks s.secretkey cc key then some ⟨s, 1, some (channel s, CAPNOPERM)⟩
  else if c.written ≤ 0 then some ⟨s, 1, some (channel s, CAPOK)⟩
  else if !c.nonblock then none
  else
    (dumpcircbuf cfg { s with sfds := insert s.ptyfd s.sfds, tipactive := true } c.dump).map fun s' =>
      ⟨s', 0, some (channel s, CAPOK)⟩

/-- Whether the first message begins with a text. -/
def Connection.startsWith (c : Connection) (text : String) : Bool :=
  c.cc = sizeofKey && strncmp c.key.key (ascii text) text.length = 0

/-- The first message asks for something that is done in an SSL session. -/
def Connection.asks (c : Connection) : Bool :=
  c.startsWith "USESSL" || c.startsWith "RELAY" || c.startsWith "OPTIONS" || c.startsWith "UPLOAD"

/-- Somebody connects. The capture is one with a device of its own, which neither relays
    another one's nor is relayed. -/
def clientconnect (cfg : Config) (s : State) (c : Connection) : Option Outcome :=
  if c.newfd < 0 then some ⟨s, 1, none⟩
  else if c.cc ≤ 0 then some ⟨s, 1, none⟩
  else if c.asks then
    if !c.accepted then some ⟨s, 1, none⟩
    else if !c.startsWith "USESSL" then
      -- the device is open already, and there is no upload to a capture that does not relay
      some ⟨s, if !c.startsWith "RELAY" && c.startsWith "OPTIONS" && !c.opterr then 0 else 1, none⟩
    else if !s.tipactive then
      let s := { s with sslCon := some c.newfd, ptyfd := c.newfd }
      if c.sslcc ≤ 0 then some ⟨s, 1, none⟩ else verify cfg s c c.sslcc c.sslkey
    else verify cfg s c c.cc c.key
  else verify cfg (if !s.tipactive then { s with ptyfd := c.newfd } else s) c c.cc c.key

/-- The other end has disconnected. -/
def disconnected (s : State) : State :=
  { s with sfds := s.sfds.erase s.ptyfd, tipactive := false }

/-- How reading from a client may fail. -/
inductive Errno
  | again
  | reset
  | other
deriving DecidableEq

/-- The client has data: `cc` bytes, or an error. -/
def clientRead (s : State) (cc : Int) (errno : Errno) : Option State :=
  if s.sslCon ≠ none ∧ cc < 0 then some (disconnected { s with sslCon := none })
  else if cc < 0 then
    match errno with
    | .again => some s
    | .reset => some (disconnected s)
    | .other => none
  else if cc = 0 then some (disconnected s)
  else some s

/-- The device has data, which goes to the client. -/
def deviceRead (s : State) (writes : List Returned) : Option State :=
  if s.tipactive then
    (sendToClient s writes).map fun s' => if !s'.tipactive then disconnected s' else s'
  else some s

/-- Close the tip down, and renew the key from random bytes. -/
def terminate (s : State) (buf : List UInt8) : Option State :=
  let s := if s.tipactive then
      { s with sfds := s.sfds.erase s.ptyfd, ptyfd := 0, tipactive := false }
    else s
  if buf.length ≠ DEFAULTKEYLEN then none else some { s with secretkey := createkey s.secretkey buf }

inductive Event
  | connect (c : Connection)
  | client (cc : Int) (errno : Errno)
  | device (writes : List Returned)
  | sigusr2 (buf : List UInt8)
deriving DecidableEq

/-- One event. There is none where capture has stopped, and the system does not give a descriptor that is
    open to a new connection, or say that there is data at one that it was not asked about. -/
def step (cfg : Config) (s : State) : Event → Option State
  | .connect c => if c.newfd ∈ s.sfds then none else (clientconnect cfg s c).map (·.state)
  | .client cc errno => if 0 ≤ s.ptyfd ∧ s.ptyfd ∈ s.sfds then clientRead s cc errno else none
  | .device writes => deviceRead s writes
  | .sigusr2 buf => terminate s buf

/-! ## Section 3: Key strings -/

theorem cstring_append {s : List UInt8} (h : ∀ b ∈ s, b ≠ 0) (rest : List UInt8) :
    cstring (s ++ 0 :: rest) = s := by
  unfold cstring
  rw [takeWhile_append_of_pos (by simpa using h), takeWhile_cons_of_neg (by simp), append_nil]

theorem ne_zero_of_mem_cstring {s : List UInt8} {b : UInt8} (h : b ∈ cstring s) : b ≠ 0 := by
  simpa using mem_takeWhile_imp h

theorem take_strlen (s : List UInt8) : s.take (strlen s) = cstring s :=
  prefix_iff_eq_take.mp ( takeWhile_prefix _) |>.symm

/-- Hexadecimal digits are not terminators, and there are one or two of them. -/
theorem hex_spec (b : UInt8) : (∀ x ∈ hex b, x ≠ 0) ∧ (hex b).length ≤ 2 := by
  have hall : ∀ n < 256, (∀ x ∈ (Nat.toDigits 16 n).map fun c => c.toNat.toUInt8, x ≠ 0) ∧
      ((Nat.toDigits 16 n).map fun c => c.toNat.toUInt8).length ≤ 2 := by
    decide +kernel
  exact hall b.toNat b.toNat_lt

theorem cstring_createkey (old : SecretKey) (buf : List UInt8) :
    cstring (createkey old buf).key = buf.flatMap hex := by
  have hloop : ∀ key : List UInt8, cstring (buf.foldl (fun key b =>
      key.take (strlen key) ++ hex b ++ 0 :: key.drop (strlen key + (hex b).length + 1)) key) =
        cstring key ++ buf.flatMap hex := by
    induction buf with
    | nil => simp
    | cons b rest ih =>
      intro key
      have happend : ∀ x ∈ cstring key ++ hex b, x ≠ 0 := by
        intro x hx
        rcases mem_append.mp hx with hx | hx
        · exact ne_zero_of_mem_cstring hx
        · exact (hex_spec b).1 x hx
      rw [foldl_cons, ih, take_strlen, cstring_append happend, flatMap_cons, append_assoc]
  have hempty : cstring (0 :: old.key.tail) = [] := rfl
  have h := hloop (0 :: old.key.tail)
  rwa [hempty, nil_append] at h

theorem strlen_createkey (old : SecretKey) {buf : List UInt8} (h : buf.length = DEFAULTKEYLEN) :
    strlen (createkey old buf).key ≤ 2 * DEFAULTKEYLEN := by
  unfold strlen
  rw [cstring_createkey, length_flatMap, ← h, mul_comm, ← smul_eq_mul]
  refine (sum_le_card_nsmul _ 2 ?_).trans_eq (by rw [length_map])
  intro n hn
  obtain ⟨b, -, rfl⟩ := mem_map.mp hn
  exact (hex_spec b).2

/-- Comparing as many bytes as a string has finds out whether the other one begins with it. -/
theorem strncmp_strlen (as bs : List UInt8) : strncmp as bs (strlen bs) = 0 ↔ cstring bs <+: cstring as := by
  induction bs generalizing as with
  | nil => simp [strlen, cstring, strncmp]
  | cons b bs ih =>
    by_cases hb : b = 0
    · have hnil : cstring (b :: bs) = [] := by
        rw [hb]
        rfl
      unfold strlen
      rw [hnil]
      exact ⟨fun _ => nil_prefix, fun _ => rfl⟩
    · have hcons : cstring (b :: bs) = b :: cstring bs := takeWhile_cons_of_pos (by simpa using hb)
      unfold strlen at ih ⊢
      rw [hcons, length_cons]
      cases as with
      | nil =>
        -- the other string has ended
        have hlt : 0 < b.toNat := Nat.pos_of_ne_zero fun h => hb (UInt8.toNat_inj.mp h)
        show (if (0 : UInt8) ≠ b then ((0 : UInt8).toNat : Int) - b.toNat
          else if (0 : UInt8) = 0 then 0 else strncmp [] bs (cstring bs).length) = 0 ↔ _
        rw [if_pos (Ne.symm hb), UInt8.toNat_zero]
        refine ⟨fun h => absurd h (by omega), fun h => ?_⟩
        exact absurd (prefix_nil.mp h) (cons_ne_nil _ _)
      | cons a as =>
        show (if a ≠ b then (a.toNat : Int) - b.toNat
          else if a = 0 then 0 else strncmp as bs (cstring bs).length) = 0 ↔ _
        by_cases hab : a = b
        · have hcons' : cstring (a :: as) = b :: cstring as := by
            rw [hab]
            exact takeWhile_cons_of_pos (by simpa using hb)
          rw [if_neg (not_not_intro hab), if_neg (hab ▸ hb), ih, hcons', cons_prefix_cons]
          exact ⟨fun h => ⟨rfl, h⟩, fun h => h.2⟩
        · have hne : a.toNat ≠ b.toNat := fun h => hab (UInt8.toNat_inj.mp h)
          rw [if_pos hab]
          refine ⟨fun h => absurd h (by omega), fun h => ?_⟩
          have hhead : b ∈ cstring (a :: as) := h.subset mem_cons_self
          by_cases ha : a = 0
          · rw [ha] at hhead
            exact absurd hhead (by simp [cstring])
          · have hcons' : cstring (a :: as) = a :: cstring as :=
              takeWhile_cons_of_pos (by simpa using ha)
            rw [hcons'] at h
            exact absurd (cons_prefix_cons.mp h).1.symm hab

theorem checks_iff {secret : SecretKey} {cc : Int} {key : SecretKey} : checks secret cc key = true ↔
    cc = sizeofKey ∧ key.keylen % 2 ^ 64 = strlen key.key ∧ cstring key.key <+: cstring secret.key := by
  unfold checks
  rw [Bool.not_eq_true', Bool.or_eq_false_iff, Bool.or_eq_false_iff, decide_eq_false_iff_not,
    decide_eq_false_iff_not, decide_eq_false_iff_not, not_not, not_not, not_not, and_assoc]
  refine and_congr_right fun _ => and_congr_right fun hlen => ?_
  rw [hlen, Int.toNat_natCast]
  exact strncmp_strlen _ _

/-! ## Section 4: What a connection does -/

/-- The message that has the key, and how much of it was read. -/
def Connection.message (c : Connection) : Int × SecretKey :=
  if c.asks then (c.sslcc, c.sslkey) else (c.cc, c.key)

/-- The connection gets to where its key is looked at, and no client is active. -/
def Connection.Reads (s : State) (c : Connection) : Prop :=
  s.tipactive = false ∧ 0 ≤ c.newfd ∧ 0 < c.cc ∧ (c.asks = true → c.accepted = true ∧ c.startsWith "USESSL" = true)

/-- The state in which the key is looked at. -/
def Connection.arrive (s : State) (c : Connection) : State :=
  if c.asks then { s with sslCon := some c.newfd, ptyfd := c.newfd } else { s with ptyfd := c.newfd }

@[simp] theorem arrive_tipactive (s : State) (c : Connection) : (c.arrive s).tipactive = s.tipactive := by
  unfold Connection.arrive
  split <;> rfl

@[simp] theorem arrive_ptyfd (s : State) (c : Connection) : (c.arrive s).ptyfd = c.newfd := by
  unfold Connection.arrive
  split <;> rfl

@[simp] theorem arrive_sfds (s : State) (c : Connection) : (c.arrive s).sfds = s.sfds := by
  unfold Connection.arrive
  split <;> rfl

@[simp] theorem arrive_secretkey (s : State) (c : Connection) : (c.arrive s).secretkey = s.secretkey := by
  unfold Connection.arrive
  split <;> rfl

/-- The state when the client has been let in. -/
def admitted (s : State) (c : Connection) : State :=
  { c.arrive s with sfds := insert (c.arrive s).ptyfd (c.arrive s).sfds, tipactive := true }

theorem sendToClient_cases {s s' : State} {writes : List Returned} (h : sendToClient s writes = some s') :
    s' = s ∨ s' = { s with tipactive := false } := by
  induction writes with
  | nil => exact Or.inl (some.inj h).symm
  | cons w writes ih =>
    unfold sendToClient at h
    split at h
    · exact Or.inl (some.inj h).symm
    dsimp only at h
    generalize hi : (if s.sslCon ≠ none ∧ w.ret < 0 then 0 else w.ret) = i at h
    split at h
    · split at h
      · exact Or.inl (some.inj h).symm
      · cases h
    · split at h
      · exact Or.inr (some.inj h).symm
      · exact ih h

/-- The client is gone when nothing could be written, in an SSL session also on errors. -/
def Gone (session : Option Int) (w : Returned) : Prop := w.ret = 0 ∨ session ≠ none ∧ w.ret < 0

theorem sendToClient_of_not_gone {s s' : State} {writes : List Returned}
    (hgone : ∀ w ∈ writes, ¬Gone s.sslCon w) (h : sendToClient s writes = some s') : s' = s := by
  induction writes with
  | nil => exact (some.inj h).symm
  | cons w writes ih =>
    have hw := hgone w mem_cons_self
    unfold Gone at hw
    unfold sendToClient at h
    split at h
    · exact (some.inj h).symm
    dsimp only at h
    rw [if_neg fun hneg => hw (Or.inr hneg)] at h
    split at h
    · split at h
      · exact (some.inj h).symm
      · cases h
    · rw [if_neg fun hzero => hw (Or.inl hzero)] at h
      exact ih (fun w' hw' => hgone w' (mem_cons_of_mem _ hw')) h

variable {s : State}

theorem sendToClient_of_pos {writes : List Returned} (h : ∀ w ∈ writes, 0 < w.ret) :
    sendToClient s writes = some s := by
  induction writes with
  | nil => rfl
  | cons w writes ih =>
    have hw := h w mem_cons_self
    have hret : (if s.sslCon ≠ none ∧ w.ret < 0 then 0 else w.ret) = w.ret :=
      if_neg fun hneg => absurd hneg.2 (by omega)
    unfold sendToClient
    split
    · rfl
    dsimp only
    rw [hret, if_neg (by omega), if_neg (by omega)]
    exact ih fun w' hw' => h w' (mem_cons_of_mem _ hw')

variable {cfg : Config} {c : Connection}

theorem clientconnect_of_not_reads {o : Outcome}
    (hreads : ¬c.Reads s) (h : clientconnect cfg s c = some o) : o.state = s := by
  have hbusy : ∀ cc key, s.tipactive = true → verify cfg s c cc key = some o → o.state = s := by
    intro cc key hactive hverify
    unfold verify at hverify
    rw [if_pos hactive] at hverify
    rw [← some.inj hverify]
  unfold Connection.Reads at hreads
  unfold clientconnect at h
  split at h
  · rw [← some.inj h]
  split at h
  · rw [← some.inj h]
  by_cases hactive : s.tipactive = true
  · rw [hactive] at h
    simp only [Bool.not_true, Bool.false_eq_true, if_false] at h
    split at h
    · split at h
      · rw [← some.inj h]
      split at h
      · rw [← some.inj h]
      · exact hbusy _ _ hactive h
    · exact hbusy _ _ hactive h
  · split at h
    · rename_i hasks
      split at h
      · rw [← some.inj h]
      split at h
      · rw [← some.inj h]
      · exfalso
        simp only [Bool.not_eq_true, Bool.not_eq_false'] at *
        exact hreads ⟨hactive, by omega, by omega, fun _ => by constructor <;> assumption⟩
    · exfalso
      simp only [Bool.not_eq_true] at *
      exact hreads ⟨hactive, by omega, by omega, fun hasks => by simp_all⟩

theorem clientconnect_of_reads (h : c.Reads s) : clientconnect cfg s c =
      if c.asks = true ∧ c.sslcc ≤ 0 then some ⟨c.arrive s, 1, none⟩
      else verify cfg (c.arrive s) c c.message.1 c.message.2 := by
  obtain ⟨hactive, hfd, hcc, hssl⟩ := h
  unfold clientconnect Connection.arrive Connection.message
  rw [if_neg (by omega), if_neg (by omega), hactive]
  by_cases hasks : c.asks = true
  · obtain ⟨haccepted, hsays⟩ := hssl hasks
    simp [hasks, haccepted, hsays]
  · simp [hasks]

/-- What a connection that gets to its key leads to: it is refused, or it is let in. -/
theorem verify_cases {cc : Int} {key : SecretKey} {o : Outcome}
    (hactive : s.tipactive = false) (h : verify cfg (c.arrive s) c cc key = some o) :
    (o.state = c.arrive s ∧ o.ret = 1 ∧ (checks s.secretkey cc key = false ∨ c.written ≤ 0)) ∨
    (o.ret = 0 ∧ checks s.secretkey cc key = true ∧ 0 < c.written ∧
      dumpcircbuf cfg (admitted s c) c.dump = some o.state) := by
  unfold verify at h
  rw [if_neg (by simpa using hactive)] at h
  split at h
  · rename_i hbad
    rw [arrive_secretkey] at hbad
    rw [← some.inj h]
    exact Or.inl ⟨rfl, rfl, Or.inl (by simpa using hbad)⟩
  split at h
  · rename_i hwritten
    rw [← some.inj h]
    exact Or.inl ⟨rfl, rfl, Or.inr hwritten⟩
  split at h
  · cases h
  · rename_i hgood hwritten _
    obtain ⟨s', hdump, rfl⟩ := map_eq_some_iff.mp h
    rw [arrive_secretkey] at hgood
    exact Or.inr ⟨rfl, by simpa using hgood, by omega, hdump⟩

/-! ## Section 5: Every run -/

/-- The key message has the whole of the secret key. -/
def Connection.HasKey (s : State) (c : Connection) : Prop :=
  checks s.secretkey c.message.1 c.message.2 = true ∧ cstring c.message.2.key = cstring s.secretkey.key

/-- The condition on the events: a connection that is looked at while no client is active has the whole key,
    and its client takes the answer and the kept output; or it is a plain one under the descriptor of the
    last client, and is refused. No SSL session ends but by a read error. -/
def StepOk (cfg : Config) (s : State) : Event → Prop
  | .connect c => c.Reads s → (c.HasKey s ∧ 0 < c.written ∧ (cfg.docircbuf = true →
        ∀ w ∈ c.dump.1 ++ c.dump.2, w.ret ≠ 0 ∧ (c.asks = true → 0 < w.ret))) ∨
      (c.asks = false ∧ c.newfd = s.ptyfd ∧ (checks s.secretkey c.message.1 c.message.2 = false ∨ c.written ≤ 0))
  | .client cc _ => cc = 0 → s.sslCon = none
  | .device writes => s.sslCon ≠ none → ∀ w ∈ writes, 0 < w.ret
  | .sigusr2 _ => s.sslCon = none

/-- The session variables agree with one another. -/
structure Sound (cfg : Config) (s : State) : Prop where
  /-- The descriptors waited for are those of the server, and that of the active client. -/
  select : s.sfds = if s.tipactive then {s.ptyfd, cfg.sockfd, cfg.devfd} else {cfg.sockfd, cfg.devfd}
  /-- The client has a descriptor of its own. -/
  own : s.ptyfd ≠ cfg.sockfd ∧ s.ptyfd ≠ cfg.devfd
  /-- An SSL session in use is that of the active client. -/
  session : s.sslCon = none ∨ s.tipactive = true ∧ s.sslCon = some s.ptyfd
  key : strlen s.secretkey.key ≤ 2 * DEFAULTKEYLEN

theorem start_sound (cfg : Config) {buf : List UInt8} (hbuf : buf.length = DEFAULTKEYLEN) :
    Sound cfg (start cfg buf) := by
  constructor
  · rfl
  · have := cfg.sockfd_pos
    have := cfg.devfd_pos
    show (-1 : Int) ≠ cfg.sockfd ∧ (-1 : Int) ≠ cfg.devfd
    omega
  · exact Or.inl rfl
  · exact strlen_createkey _ hbuf

theorem dumpcircbuf_of_not_gone {s s' : State} {dump : List Returned × List Returned}
    (hgone : cfg.docircbuf = true → ∀ w ∈ dump.1 ++ dump.2, ¬Gone s.sslCon w)
    (h : dumpcircbuf cfg s dump = some s') : s' = s := by
  unfold dumpcircbuf at h
  split at h
  · rename_i hdocircbuf
    obtain ⟨s₁, h₁, h₂⟩ := bind_eq_some_iff.mp h
    have hall := hgone hdocircbuf
    obtain rfl := sendToClient_of_not_gone (fun w hw => hall w (mem_append_left _ hw)) h₁
    exact sendToClient_of_not_gone (fun w hw => hall w (mem_append_right _ hw)) h₂
  · exact (some.inj h).symm

/-- Under the condition a connection changes nothing, or its client is let in with the whole key. -/
theorem connect_cases {o : Outcome} (hs : Sound cfg s)
    (hok : StepOk cfg s (.connect c)) (h : clientconnect cfg s c = some o) :
    o.state = s ∨ (c.Reads s ∧ o.state = admitted s c ∧ o.ret = 0 ∧ c.HasKey s) := by
  by_cases hreads : c.Reads s
  · have hnossl : s.sslCon = none := by
      rcases hs.session with hnone | ⟨hactive, -⟩
      · exact hnone
      · rw [hreads.1] at hactive
        cases hactive
    rw [clientconnect_of_reads hreads] at h
    split at h
    · -- nothing was read in the SSL session
      rename_i hfail
      rcases hok hreads with ⟨hkey, -, -⟩ | ⟨hasks, -, -⟩
      · have hcc := (checks_iff.mp hkey.1).1
        unfold Connection.message at hcc
        rw [if_pos hfail.1] at hcc
        have hcc : c.sslcc = 260 := hcc
        have := hfail.2
        omega
      · rw [hasks] at hfail
        exact absurd hfail.1 Bool.false_ne_true
    · rcases verify_cases hreads.1 h with ⟨hstate, -, hrefused⟩ | ⟨hret, hchecks, hwritten, hdump⟩
      · rcases hok hreads with ⟨hkey, hwritten, -⟩ | ⟨hasks, hfd, -⟩
        · rcases hrefused with hbad | hfail
          · rw [hkey.1] at hbad
            cases hbad
          · omega
        · left
          rw [hstate]
          unfold Connection.arrive
          rw [if_neg (by simp [hasks]), hfd]
      · rcases hok hreads with ⟨hkey, -, hdumped⟩ | ⟨-, -, hrefused⟩
        · refine Or.inr ⟨hreads, dumpcircbuf_of_not_gone (fun hdo w hw => ?_) hdump, hret, hkey⟩
          obtain ⟨hne, hpos⟩ := hdumped hdo w hw
          rintro (hzero | ⟨hssl, hneg⟩)
          · exact hne hzero
          · by_cases hasks : c.asks = true
            · have := hpos hasks
              omega
            · apply hssl
              show (c.arrive s).sslCon = none
              unfold Connection.arrive
              rw [if_neg hasks]
              exact hnossl
        · rcases hrefused with hbad | hfail
          · rw [hchecks] at hbad
            cases hbad
          · omega
  · exact Or.inl (clientconnect_of_not_reads hreads h)

/-- The new client has the session. -/
theorem Sound.admitted (h : Sound cfg s) (hreads : c.Reads s)
    (hnew : c.newfd ∉ s.sfds) : Sound cfg (admitted s c) := by
  have hsfds : s.sfds = {cfg.sockfd, cfg.devfd} := by
    rw [h.select, if_neg (by simp [hreads.1])]
  rw [hsfds, Finset.mem_insert, Finset.mem_singleton, not_or] at hnew
  constructor
  · show insert (c.arrive s).ptyfd (c.arrive s).sfds = {(c.arrive s).ptyfd, cfg.sockfd, cfg.devfd}
    rw [arrive_sfds, hsfds]
  · show (c.arrive s).ptyfd ≠ cfg.sockfd ∧ (c.arrive s).ptyfd ≠ cfg.devfd
    rw [arrive_ptyfd]
    exact hnew
  · show (c.arrive s).sslCon = none ∨ true = true ∧ (c.arrive s).sslCon = some (c.arrive s).ptyfd
    unfold Connection.arrive
    split
    · exact Or.inr ⟨rfl, rfl⟩
    · rcases h.session with hnone | ⟨hactive, -⟩
      · exact Or.inl hnone
      · rw [hreads.1] at hactive
        cases hactive
  · show strlen (c.arrive s).secretkey.key ≤ 2 * DEFAULTKEYLEN
    rw [arrive_secretkey]
    exact h.key

theorem Sound.disconnected (h : Sound cfg s) (hssl : s.sslCon = none)
    (hin : s.tipactive = true) : Sound cfg (disconnected s) := by
  obtain ⟨hsock, hdev⟩ := h.own
  constructor
  · show s.sfds.erase s.ptyfd = {cfg.sockfd, cfg.devfd}
    rw [h.select, if_pos hin]
    exact Finset.erase_insert (by simp [hsock, hdev])
  · exact h.own
  · exact Or.inl hssl
  · exact h.key

theorem Sound.active_of_mem (h : Sound cfg s) (hin : s.ptyfd ∈ s.sfds) : s.tipactive = true := by
  by_contra hactive
  obtain ⟨hsock, hdev⟩ := h.own
  rw [h.select, if_neg hactive] at hin
  simp [hsock, hdev] at hin

/-- Each event that meets the condition keeps the session sound. -/
theorem Sound.step {s s' : State} {e : Event} (h : Sound cfg s) (hok : StepOk cfg s e)
    (hstep : step cfg s e = some s') : Sound cfg s' := by
  cases e with
  | connect c =>
    have hstep : (if c.newfd ∈ s.sfds then none else (clientconnect cfg s c).map (·.state)) = some s' := hstep
    split at hstep
    · cases hstep
    rename_i hnew
    obtain ⟨o, ho, rfl⟩ := map_eq_some_iff.mp hstep
    rcases connect_cases h hok ho with hsame | ⟨hreads, hstate, -, -⟩
    · rw [hsame]
      exact h
    · rw [hstate]
      exact h.admitted hreads hnew
  | client cc errno =>
    have hstep : (if 0 ≤ s.ptyfd ∧ s.ptyfd ∈ s.sfds then clientRead s cc errno else none) = some s' := hstep
    split at hstep
    swap
    · cases hstep
    rename_i hin
    have hactive := h.active_of_mem hin.2
    unfold clientRead at hstep
    split at hstep
    · -- a read error ends the SSL session
      have hfreed : Sound cfg { s with sslCon := none } := ⟨h.select, h.own, Or.inl rfl, h.key⟩
      rw [← some.inj hstep]
      exact hfreed.disconnected rfl hactive
    rename_i hnossl
    split at hstep
    · rename_i hneg
      have hnone : s.sslCon = none := by
        by_contra hssl
        exact hnossl ⟨hssl, hneg⟩
      cases errno <;> simp only [Option.some.injEq, reduceCtorEq] at hstep
      · rw [← hstep]
        exact h
      · rw [← hstep]
        exact h.disconnected hnone hactive
    split at hstep
    · rename_i hzero
      rw [← some.inj hstep]
      exact h.disconnected (hok hzero) hactive
    · rw [← some.inj hstep]
      exact h
  | device writes =>
    have hstep : deviceRead s writes = some s' := hstep
    unfold deviceRead at hstep
    split at hstep
    · rename_i hactive
      obtain ⟨s₁, hsend, rfl⟩ := map_eq_some_iff.mp hstep
      by_cases hssl : s.sslCon = none
      · rcases sendToClient_cases hsend with rfl | rfl
        · rw [if_neg (by simp [hactive])]
          exact h
        · -- the client is gone
          rw [if_pos (by rfl)]
          exact h.disconnected hssl hactive
      · have hsame := hsend.symm.trans (sendToClient_of_pos (hok hssl))
        rw [some.inj hsame, if_neg (by simp [hactive])]
        exact h
    · rw [← some.inj hstep]
      exact h
  | sigusr2 buf =>
    have hnossl : s.sslCon = none := hok
    have hstep : terminate s buf = some s' := hstep
    unfold terminate at hstep
    dsimp only at hstep
    split at hstep
    · cases hstep
    rename_i hbuf
    have hkey := strlen_createkey s.secretkey (not_not.mp hbuf)
    rw [← some.inj hstep]
    split
    · rename_i hactive
      have hgone := h.disconnected hnossl hactive
      have := cfg.sockfd_pos
      have := cfg.devfd_pos
      refine ⟨hgone.select, ?_, Or.inl hnossl, hkey⟩
      show (0 : Int) ≠ cfg.sockfd ∧ (0 : Int) ≠ cfg.devfd
      omega
    · exact ⟨h.select, h.own, h.session, hkey⟩

/-! ## Section 6: Access to the console -/

/-- A client becomes the active one only with the whole key in its message. -/
def Admits (cfg : Config) (s : State) (e : Event) : Prop :=
  ∀ s', step cfg s e = some s' → s.tipactive = false → s'.tipactive = true →
    ∃ c, e = .connect c ∧ s'.ptyfd = c.newfd ∧ cstring c.message.2.key = cstring s.secretkey.key

/-- A connection that is refused leaves the session as it was. -/
def Refuses (cfg : Config) (s : State) (e : Event) : Prop :=
  ∀ c o, e = .connect c → clientconnect cfg s c = some o → o.ret = 1 → o.state = s

/-- A connection with the key in force, all of whose calls succeed. -/
structure Connection.Correct (s : State) (c : Connection) : Prop where
  /-- It has got a descriptor. -/
  newfd : 0 ≤ c.newfd ∧ c.newfd ∉ s.sfds
  /-- Its first message has been read. -/
  cc : c.cc = sizeofKey
  /-- An SSL session has been set up if it asks for anything. -/
  ssl : c.asks = true → c.accepted = true ∧ c.startsWith "USESSL" = true
  key : c.message.1 = sizeofKey ∧ c.message.2.keylen = strlen c.message.2.key ∧
    cstring c.message.2.key = cstring s.secretkey.key
  written : 0 < c.written
  nonblock : c.nonblock = true
  /-- The kept output has been written. -/
  dump : ∀ w ∈ c.dump.1 ++ c.dump.2, 0 < w.ret

/-- A correct client gets its answer on its own channel and the session when nobody else has it. -/
def Serves (cfg : Config) (s : State) : Prop :=
  ∀ c, s.tipactive = false → c.Correct s → clientconnect cfg s c =
    some ⟨admitted s c, 0, some (if c.asks then .ssl c.newfd else .plain c.newfd, CAPOK)⟩

theorem Sound.serves (h : Sound cfg s) : Serves cfg s := by
  intro c hactive hc
  have hnossl : s.sslCon = none := by
    rcases h.session with hnone | ⟨hin, -⟩
    · exact hnone
    · rw [hactive] at hin
      cases hin
  obtain ⟨hcc, hkeylen, hkey⟩ := hc.key
  have hlen : strlen c.message.2.key ≤ 2 * DEFAULTKEYLEN := by
    unfold strlen
    rw [hkey]
    exact h.key
  have hchecks : checks (c.arrive s).secretkey c.message.1 c.message.2 = true := by
    rw [arrive_secretkey]
    refine checks_iff.mpr ⟨hcc, ?_, hkey ▸ prefix_rfl⟩
    have hmax : 2 * DEFAULTKEYLEN = 64 := rfl
    rw [hkeylen]
    exact Int.emod_eq_of_lt (by omega) (by omega)
  have hreads : c.Reads s := ⟨hactive, hc.newfd.1, by rw [hc.cc]; decide, hc.ssl⟩
  have hread : ¬(c.asks = true ∧ c.sslcc ≤ 0) := by
    rintro ⟨hasks, hfail⟩
    unfold Connection.message at hcc
    rw [if_pos hasks] at hcc
    have hcc : c.sslcc = 260 := hcc
    omega
  have hdump : ∀ s₁, dumpcircbuf cfg s₁ c.dump = some s₁ := by
    intro s₁
    unfold dumpcircbuf
    split
    · rw [sendToClient_of_pos fun w hw => hc.dump w (mem_append_left _ hw), bind_some,
        sendToClient_of_pos fun w hw => hc.dump w (mem_append_right _ hw)]
    · rfl
  have hchannel : channel (c.arrive s) = if c.asks then .ssl c.newfd else .plain c.newfd := by
    unfold channel Connection.arrive
    split <;> rename_i hssl
    · by_cases hasks : c.asks = true
      · rw [if_pos hasks] at hssl
        rw [if_pos hasks, some.inj hssl]
      · rw [if_neg hasks] at hssl
        rw [hnossl] at hssl
        cases hssl
    · by_cases hasks : c.asks = true
      · rw [if_pos hasks] at hssl
        cases hssl
      · rw [if_neg hasks, if_neg hasks]
  rw [clientconnect_of_reads hreads, if_neg hread]
  unfold verify
  rw [arrive_tipactive, hactive, hchecks, hc.nonblock, hchannel]
  rw [if_neg (by decide), if_neg (by decide), if_neg (by have := hc.written; omega), if_neg (by decide), hdump]
  rfl

/-- Nothing but a connection makes a client active. -/
theorem active_of_step {s s' : State} {e : Event} (hstep : step cfg s e = some s')
    (he : ∀ c, e ≠ .connect c) (hactive : s'.tipactive = true) : s.tipactive = true := by
  cases e with
  | connect c => exact absurd rfl (he c)
  | client cc errno =>
    have hstep : (if 0 ≤ s.ptyfd ∧ s.ptyfd ∈ s.sfds then clientRead s cc errno else none) = some s' := hstep
    split at hstep
    swap
    · cases hstep
    unfold clientRead at hstep
    split at hstep
    · rw [← some.inj hstep] at hactive
      cases hactive
    split at hstep
    · cases errno <;> simp only [Option.some.injEq, reduceCtorEq] at hstep
      · rw [← hstep] at hactive
        exact hactive
      · rw [← hstep] at hactive
        cases hactive
    split at hstep
    · rw [← some.inj hstep] at hactive
      cases hactive
    · rw [← some.inj hstep] at hactive
      exact hactive
  | device writes =>
    have hstep : deviceRead s writes = some s' := hstep
    unfold deviceRead at hstep
    split at hstep
    · assumption
    · rw [← some.inj hstep] at hactive
      exact hactive
  | sigusr2 buf =>
    have hstep : terminate s buf = some s' := hstep
    unfold terminate at hstep
    dsimp only at hstep
    split at hstep
    · cases hstep
    rw [← some.inj hstep] at hactive
    split at hactive
    · assumption
    · exact hactive

/-- In a sound session the events that meet the condition admit nobody else, and the
    connections that are refused leave it alone. -/
theorem Sound.event {e : Event} (h : Sound cfg s) (hok : StepOk cfg s e) : Admits cfg s e ∧ Refuses cfg s e := by
  constructor
  · intro s' hstep hinactive hactive
    cases e with
    | connect c =>
      refine ⟨c, rfl, ?_⟩
      have hstep : (if c.newfd ∈ s.sfds then none else (clientconnect cfg s c).map (·.state)) = some s' := hstep
      split at hstep
      · cases hstep
      obtain ⟨o, ho, rfl⟩ := map_eq_some_iff.mp hstep
      rcases connect_cases h hok ho with hsame | ⟨-, hstate, -, hkey⟩
      · rw [hsame, hinactive] at hactive
        cases hactive
      · rw [hstate]
        exact ⟨arrive_ptyfd s c, hkey.2⟩
    | client | device | sigusr2 =>
      have hwas := active_of_step hstep (fun c hc => by cases hc) hactive
      rw [hinactive] at hwas
      cases hwas
  · rintro c o rfl ho hret
    rcases connect_cases h hok ho with hsame | ⟨-, -, htaken, -⟩
    · exact hsame
    · rw [hret] at htaken
      cases htaken

/-- In every run whose events meet the condition one client at most is waited for, the active one, and the
    next correct client is served when there is none; and no event that meets the condition lets a client in
    without the key, or changes the session for one that is refused. -/
theorem console_access {cfg : Config} {buf : List UInt8} {events : List Event} {s : State}
    (hbuf : buf.length = DEFAULTKEYLEN) (hok : Machine.Meets (step cfg) (StepOk cfg) (start cfg buf) events)
    (hrun : Machine.run (step cfg) (start cfg buf) events = some s) :
    s.sfds \ {cfg.sockfd, cfg.devfd} = (if s.tipactive then {s.ptyfd} else ∅) ∧ Serves cfg s ∧
      ∀ e, StepOk cfg s e → Admits cfg s e ∧ Refuses cfg s e := by
  have h := Machine.run_inv (Sound cfg) (fun _ _ _ h hok hstep => h.step hok hstep) (start_sound cfg hbuf) hok hrun
  refine ⟨?_, h.serves, fun e he => h.event he⟩
  obtain ⟨hsock, hdev⟩ := h.own
  rw [h.select]
  split
  · rw [Finset.insert_sdiff_of_notMem _ (by simp [hsock, hdev]), Finset.sdiff_self]
    rfl
  · exact Finset.sdiff_self _

instance (s : State) (c : Connection) : Decidable (c.Reads s) :=
  inferInstanceAs (Decidable (_ ∧ _ ∧ _ ∧ (_ → _)))

instance (s : State) (c : Connection) : Decidable (c.HasKey s) :=
  inferInstanceAs (Decidable (_ ∧ _))

instance (cfg : Config) (s : State) : (e : Event) → Decidable (StepOk cfg s e)
  | .connect _ => inferInstanceAs (Decidable (_ → _ ∨ _))
  | .client _ _ => inferInstanceAs (Decidable (_ → _))
  | .device _ => inferInstanceAs (Decidable (_ → _))
  | .sigusr2 _ => inferInstanceAs (Decidable (_ = _))

/-- A console server, with the first descriptors there are. -/
def console : Config := ⟨3, 4, true, by decide, by decide⟩

def random : List UInt8 := List.replicate 32 171

def keyMessage (text : List UInt8) : SecretKey := ⟨text.length, text ++ List.replicate (256 - text.length) 0⟩

/-- A client on descriptor 5 that sends a key on the connection itself. -/
def plainClient (text : List UInt8) : Connection :=
  ⟨5, 260, keyMessage text, false, 0, keyMessage [], 4, true, ([], []), false⟩

/-- A client on descriptor 5 that sends a key in an SSL session. -/
def sslClient (text : List UInt8) : Connection :=
  ⟨5, 260, keyMessage (ascii "USESSL"), true, 260, keyMessage text, 4, true, ([⟨80, false⟩], []), false⟩

/-- A client in an SSL session that breaks, one that sends a wrong key, and one that is
    revoked with its key. -/
theorem console_access_three : ∃ s, Machine.run (step console) (start console random)
      [.connect (sslClient (random.flatMap hex)), .device [⟨10, false⟩], .client (-1) .other,
        .connect (plainClient (ascii "guess")), .connect (plainClient (random.flatMap hex)),
        .sigusr2 (List.replicate 32 7)] = some s ∧
    s.sfds \ {console.sockfd, console.devfd} = (if s.tipactive then {s.ptyfd} else ∅) ∧ Serves console s := by
  obtain ⟨s, hrun⟩ := isSome_iff_exists.mp (show
    (Machine.run (step console) (start console random)
      [.connect (sslClient (random.flatMap hex)), .device [⟨10, false⟩], .client (-1) .other,
        .connect (plainClient (ascii "guess")), .connect (plainClient (random.flatMap hex)),
        .sigusr2 (List.replicate 32 7)]).isSome by decide +kernel)
  have h := console_access (by decide) (by decide +kernel) hrun
  exact ⟨s, hrun, h.1, h.2.1⟩

/-- An empty key is let in; a wrong key in an SSL session stays the session in use; and after a client in an
    SSL session has disconnected, the next correct one without it is answered in the old session. -/
theorem console_open : (¬ ∀ (cfg : Config) (buf : List UInt8) (events : List Event) (s : State) (e : Event),
      Machine.run (step cfg) (start cfg buf) events = some s → Admits cfg s e) ∧
    (¬ ∀ (cfg : Config) (buf : List UInt8) (events : List Event) (s : State) (e : Event),
      Machine.run (step cfg) (start cfg buf) events = some s → Refuses cfg s e) ∧
    ¬ ∀ (cfg : Config) (buf : List UInt8) (events : List Event) (s : State),
      Machine.run (step cfg) (start cfg buf) events = some s → Serves cfg s := by
  refine ⟨fun h => ?_, fun h => ?_, fun h => ?_⟩
  · obtain ⟨s', hstep⟩ := isSome_iff_exists.mp (show
      (step console (start console random) (.connect (plainClient []))).isSome by decide +kernel)
    have hactive : (step console (start console random) (.connect (plainClient []))).map (·.tipactive) =
        some true := by
      decide +kernel
    rw [hstep] at hactive
    obtain ⟨c, hc, -, hkey⟩ := h console random [] _ (.connect (plainClient [])) rfl s' hstep rfl
      (some.inj hactive)
    obtain rfl : plainClient [] = c := Event.connect.inj hc
    exact absurd hkey (by decide +kernel)
  · have hrefused : (clientconnect console (start console random) (sslClient (ascii "guess"))).map
        (fun o => (o.ret, decide (o.state = start console random))) = some (1, false) := by
      decide +kernel
    obtain ⟨o, ho, heq⟩ := map_eq_some_iff.mp hrefused
    obtain ⟨hret, hstate⟩ := Prod.mk.inj heq
    have hsame := h console random [] _ (.connect (sslClient (ascii "guess"))) rfl _ o rfl ho hret
    exact absurd hsame (of_decide_eq_false hstate)
  · have hafter : (Machine.run (step console) (start console random)
        [.connect (sslClient (random.flatMap hex)), .client 0 .other]).map (fun s =>
          (s.tipactive, decide (5 ∉ s.sfds), s.secretkey, (clientconnect console s
            (plainClient (random.flatMap hex))).bind (·.answer))) =
        some (false, true, (start console random).secretkey, some (.ssl 5, CAPOK)) := by
      decide +kernel
    obtain ⟨s, hs, heq⟩ := map_eq_some_iff.mp hafter
    obtain ⟨hinactive, heq⟩ := Prod.mk.inj heq
    obtain ⟨hnew, heq⟩ := Prod.mk.inj heq
    obtain ⟨hsecret, hanswer⟩ := Prod.mk.inj heq
    have hcorrect : (plainClient (random.flatMap hex)).Correct s := by
      constructor
      · exact ⟨by decide, of_decide_eq_true hnew⟩
      · rfl
      · intro hasks
        exact absurd hasks (by decide +kernel)
      · rw [hsecret]
        decide +kernel
      · decide
      · rfl
      · intro w hw
        cases hw
    have hserved := h console random _ s hs _ hinactive hcorrect
    have hplain : (plainClient (random.flatMap hex)).asks = false := by decide +kernel
    rw [hserved, bind_some, hplain] at hanswer
    cases hanswer

end Emulab.Capture
