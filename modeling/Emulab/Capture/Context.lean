import Mathlib.Data.List.Basic
import Mathlib.Logic.Function.Basic
import Emulab.Lib.Machine

/-! # The context of a console

  What the device says while nobody is connected is kept in a circular buffer, and
  the next client is sent it. The device may speak telnet; what it says is then
  taken out of the protocol by a callback, which does not know of the buffer.
-/

open Machine

namespace Emulab.Capture.Context

open List Option

/-! ## Section 1: Model -/

inductive Devproto
  | raw
  | telnet
deriving DecidableEq

structure Config where
  docircbuf : Bool
  devproto : Devproto

abbrev CIRCBUFSIZE : Nat := 8 * 1024

structure State where
  circbuf : Nat → UInt8
  /-- The next place to write, counted from `circbuf`. -/
  circp : Nat
  circcount : Nat
  tipactive : Bool
  /-- What has been written to the socket of the last client. -/
  client : List UInt8
  /-- What has been written to the log file. -/
  log : List UInt8

def initcircbuf : State := ⟨fun _ => 0, 0, 0, false, [], []⟩

def clearcircbuf (s : State) : State := { s with circp := 0, circcount := 0 }

/-- One turn of the loop of `addtocircbuf`. -/
def State.put (s : State) (b : UInt8) : State :=
  { s with
    circbuf := Function.update s.circbuf s.circp b
    circp := if s.circp + 1 = CIRCBUFSIZE then 0 else s.circp + 1
    circcount := if s.circcount < CIRCBUFSIZE then s.circcount + 1 else s.circcount }

def addtocircbuf (cfg : Config) (s : State) (buf : List UInt8) : State :=
  if !cfg.docircbuf then s else buf.foldl State.put s

/-- Write to the client. The socket takes as many bytes at a time as `writes` says,
    and behind that whatever is left; a client that takes none has gone. -/
def send_to_client (s : State) (buf : List UInt8) : List Nat → State
  | [] => if !s.tipactive then s else { s with client := s.client ++ buf }
  | i :: writes =>
    if !s.tipactive ∨ buf = [] then s
    else if i = 0 then { s with tipactive := false }
    else send_to_client { s with client := s.client ++ buf.take i } (buf.drop i) writes

def send_to_logfile (s : State) (buf : List UInt8) : State := { s with log := s.log ++ buf }

/-- `cc` bytes of the buffer from `start` on. -/
def State.bytes (s : State) (start cc : Nat) : List UInt8 :=
  (List.range cc).map fun i => s.circbuf (start + i)

def dumpcircbuf (cfg : Config) (s : State) : State :=
  if !(s.circcount ≠ 0 && cfg.docircbuf) then s
  else if s.circcount < CIRCBUFSIZE then
    clearcircbuf (send_to_client s (s.bytes 0 s.circcount) [])
  else
    let cc := CIRCBUFSIZE - s.circp
    clearcircbuf (send_to_client (send_to_client s (s.bytes s.circp cc) []) (s.bytes 0 (s.circcount - cc)) [])

def proto_telnet_callback (s : State) (buf : List UInt8) (writes : List Nat) : State :=
  send_to_logfile (if s.tipactive then send_to_client s buf writes else s) buf

def deviceData (cfg : Config) (s : State) (buf : List UInt8) (writes : List Nat) : State :=
  if cfg.devproto = .telnet then proto_telnet_callback s buf writes
  else if s.tipactive then
    let s := send_to_client s buf writes
    -- the client that has gone has not seen all of the chunk
    if !s.tipactive then addtocircbuf cfg (send_to_logfile s buf) buf else send_to_logfile s buf
  else send_to_logfile (addtocircbuf cfg s buf) buf

/-- A client with the right key is let in, unless there is one. -/
def clientconnect (cfg : Config) (s : State) : State :=
  if s.tipactive then s else dumpcircbuf cfg { s with client := [], tipactive := true }

def newrun (cfg : Config) (s : State) : State := if cfg.docircbuf then clearcircbuf s else s

def terminate (cfg : Config) (s : State) : State :=
  let s := { s with tipactive := false }
  if cfg.docircbuf then clearcircbuf s else s

inductive Event
  | device (buf : List UInt8) (writes : List Nat)
  | connect
  | disconnected
  | sigusr1
  | sigusr2

def step (cfg : Config) (s : State) : Event → Option State
  | .device buf writes => some (deviceData cfg s buf writes)
  | .connect => some (clientconnect cfg s)
  | .disconnected => some { s with tipactive := false }
  | .sigusr1 => some (newrun cfg s)
  | .sigusr2 => some (terminate cfg s)

/-! ## Section 2: What clients should see -/

/-- The writes of a chunk get to its end. -/
def stays : List UInt8 → List Nat → Bool
  | _, [] => true
  | buf, i :: writes => buf = [] || (i ≠ 0 && stays (buf.drop i) writes)

/-- A console with its history. -/
structure Session where
  active : Bool
  /-- What the device has said to nobody since the last dump or reset. -/
  idle : List UInt8
  /-- What the client should have been sent. -/
  expected : List UInt8
  device : List UInt8

def Session.begin : Session := ⟨false, [], [], []⟩

def lastBytes (l : List UInt8) : List UInt8 := l.drop (l.length - CIRCBUFSIZE)

def Session.after (a : Session) : Event → Session
  | .device buf writes =>
    if a.active ∧ stays buf writes then
      { a with expected := a.expected ++ buf, device := a.device ++ buf }
    else { a with active := false, idle := a.idle ++ buf, device := a.device ++ buf }
  | .connect =>
    if a.active then a else { a with active := true, expected := lastBytes a.idle, idle := [] }
  | .disconnected => { a with active := false }
  | .sigusr1 => { a with idle := [] }
  | .sigusr2 => { a with active := false, idle := [] }

/-- What a telnet device says is said to a client that stays. -/
def StepOk (cfg : Config) (s : State) : Event → Prop
  | .device buf writes => cfg.devproto = .telnet → s.tipactive = true ∧ stays buf writes = true
  | _ => True

/-! ## Section 3: The circular buffer -/

variable {cfg : Config} {s s' : State} {a : Session} {idle : List UInt8}

/-- The last bytes of `idle` are in the buffer. -/
structure Holds (s : State) (idle : List UInt8) : Prop where
  circp : s.circp = idle.length % CIRCBUFSIZE
  circcount : s.circcount = min idle.length CIRCBUFSIZE
  /-- A byte stays where it is until it is the oldest one. -/
  bytes : ∀ i (hi : i < idle.length), idle.length ≤ i + CIRCBUFSIZE → s.circbuf (i % CIRCBUFSIZE) = idle[i]

theorem Holds.put (h : Holds s idle) (b : UInt8) : Holds (s.put b) (idle ++ [b]) := by
  have hp := h.circp
  have hcount := h.circcount
  have hlength : (idle ++ [b]).length = idle.length + 1 := by simp
  refine ⟨?_, ?_, fun i hi hlast => ?_⟩
  · simp only [hlength, State.put, CIRCBUFSIZE] at *
    split_ifs <;> omega
  · simp only [hlength, State.put, CIRCBUFSIZE] at *
    split_ifs <;> omega
  · rw [hlength] at hi hlast
    show Function.update s.circbuf s.circp b (i % CIRCBUFSIZE) = _
    rcases Nat.lt_or_ge i idle.length with hlt | hge
    · -- an older byte is in another place
      have hne : i % CIRCBUFSIZE ≠ s.circp := by
        simp only [CIRCBUFSIZE] at *
        omega
      rw [Function.update_of_ne hne, getElem_append_left hlt]
      exact h.bytes i hlt (by omega)
    · obtain rfl : i = idle.length := by omega
      rw [← hp, Function.update_self, getElem_concat_length rfl]

theorem Holds.addtocircbuf (hdo : cfg.docircbuf = true) (h : Holds s idle) (buf : List UInt8) :
    Holds (addtocircbuf cfg s buf) (idle ++ buf) := by
  unfold Context.addtocircbuf
  rw [hdo]
  show Holds (buf.foldl State.put s) (idle ++ buf)
  induction buf generalizing s idle with
  | nil => simpa using h
  | cons b buf ih => simpa using ih (h.put b)

theorem Holds.dump (h : Holds s idle) : (if s.circcount < CIRCBUFSIZE then s.bytes 0 s.circcount
      else s.bytes s.circp (CIRCBUFSIZE - s.circp) ++
        s.bytes 0 (s.circcount - (CIRCBUFSIZE - s.circp))) = lastBytes idle := by
  have hp := h.circp
  have hcount := h.circcount
  have hsize : CIRCBUFSIZE = 8192 := rfl
  unfold lastBytes
  split_ifs with hfull
  · have hall : s.circcount = idle.length := by omega
    rw [Nat.sub_eq_zero_of_le (by omega), drop_zero, hall]
    refine ext_getElem (by simp [State.bytes]) fun i hi hi' => ?_
    simp only [State.bytes, getElem_map, getElem_range, Nat.zero_add]
    rw [← h.bytes i hi' (by omega), Nat.mod_eq_of_lt (by omega)]
  · refine ext_getElem ?_ fun i hi hi' => ?_
    · simp only [State.bytes, length_append, length_map, length_range, length_drop]
      omega
    · rw [length_drop] at hi'
      rw [getElem_drop, ← h.bytes _ (by omega) (by omega)]
      simp only [getElem_append, State.bytes, length_map, length_range, getElem_map, getElem_range]
      -- the piece in front of the write pointer comes second
      clear hi
      simp only [CIRCBUFSIZE] at *
      split_ifs with hi
      · congr 1
        omega
      · congr 1
        omega

theorem send_to_client_nil (h : s.tipactive = true) (buf : List UInt8) :
    send_to_client s buf [] = { s with client := s.client ++ buf } := by
  simp [send_to_client, h]

theorem Holds.dumpcircbuf (hdo : cfg.docircbuf = true) (hactive : s.tipactive = true) (h : Holds s idle) :
    dumpcircbuf cfg s = clearcircbuf { s with client := s.client ++ lastBytes idle } := by
  have hdump := h.dump
  unfold Context.dumpcircbuf
  by_cases hnone : s.circcount = 0
  · have hempty : idle = [] := by
      have hcount := h.circcount
      simp only [CIRCBUFSIZE] at hcount
      exact length_eq_zero_iff.mp (by omega)
    have hp : s.circp = 0 := by rw [h.circp, hempty]; rfl
    rw [if_pos (by simp [hnone]), hempty]
    cases s
    simp_all [clearcircbuf, lastBytes]
  · rw [if_neg (by simp [hnone, hdo])]
    split_ifs at hdump ⊢
    · rw [send_to_client_nil hactive, hdump]
    · dsimp only
      rw [send_to_client_nil hactive, send_to_client_nil, ← hdump, ← append_assoc]
      exact hactive

/-! ## Section 4: One step -/

theorem send_to_client_active (h : s.tipactive = true) (buf : List UInt8)
    (writes : List Nat) : ∃ sent, send_to_client s buf writes =
      { s with tipactive := stays buf writes, client := s.client ++ sent } ∧
      (stays buf writes = true → sent = buf) := by
  induction writes generalizing s buf with
  | nil => exact ⟨buf, by simp [send_to_client, stays, h], fun _ => rfl⟩
  | cons i writes ih =>
    unfold send_to_client stays
    by_cases hempty : buf = []
    · refine ⟨[], ?_, fun _ => hempty.symm⟩
      cases s
      simp_all
    · by_cases hgone : i = 0
      · exact ⟨[], by simp [h, hempty, hgone], by simp [hempty, hgone]⟩
      · obtain ⟨sent, heq, hsent⟩ := ih (s := { s with client := s.client ++ buf.take i }) h (buf.drop i)
        rw [if_neg (by simp [h, hempty]), if_neg hgone, heq]
        refine ⟨buf.take i ++ sent, by simp [hempty, hgone], fun hstays => ?_⟩
        rw [hsent (by simpa [hempty, hgone] using hstays), take_append_drop]

structure Simulates (s : State) (a : Session) : Prop where
  active : s.tipactive = a.active
  client : a.active = true → s.client = a.expected
  log : s.log = a.device
  context : Holds s a.idle

theorem Holds.clear (s : State) : Holds (clearcircbuf s) [] := ⟨rfl, rfl, nofun⟩

theorem addtocircbuf_frame (cfg : Config) (s : State) (buf : List UInt8) :
    (addtocircbuf cfg s buf).tipactive = s.tipactive ∧ (addtocircbuf cfg s buf).log = s.log := by
  unfold addtocircbuf
  split_ifs
  · exact ⟨rfl, rfl⟩
  · induction buf generalizing s with
    | nil => exact ⟨rfl, rfl⟩
    | cons b buf ih => exact ih (s.put b)

theorem Simulates.connect (hdo : cfg.docircbuf = true) (h : Simulates s a) :
    Simulates (clientconnect cfg s) (a.after .connect) := by
  unfold clientconnect Session.after
  rw [h.active]
  cases ha : a.active with
  | true => simpa using h
  | false =>
    have hidle : Holds { s with client := [], tipactive := true } a.idle :=
      ⟨h.context.circp, h.context.circcount, h.context.bytes⟩
    simp only [Bool.false_eq_true, if_false]
    rw [hidle.dumpcircbuf hdo rfl]
    rw [nil_append]
    generalize lastBytes a.idle = context
    exact ⟨rfl, fun _ => rfl, h.log, .clear _⟩

theorem Simulates.device (hdo : cfg.docircbuf = true) (h : Simulates s a) {buf : List UInt8}
    {writes : List Nat} (hok : StepOk cfg s (.device buf writes)) :
    Simulates (deviceData cfg s buf writes) (a.after (.device buf writes)) := by
  have hlog : s.log ++ buf = a.device ++ buf := by rw [h.log]
  by_cases hheard : s.tipactive = true ∧ stays buf writes = true
  · obtain ⟨sent, hsend, hsent⟩ := send_to_client_active hheard.1 buf writes
    have hdata : deviceData cfg s buf writes = { s with client := s.client ++ buf, log := s.log ++ buf } := by
      unfold deviceData proto_telnet_callback
      rw [if_pos hheard.1, if_pos hheard.1, hsend, hsent hheard.2, hheard.2]
      simp [send_to_logfile, hheard.1]
    have hafter : a.after (.device buf writes) =
        { a with expected := a.expected ++ buf, device := a.device ++ buf } :=
      if_pos (h.active ▸ hheard)
    rw [hdata, hafter]
    exact ⟨h.active, fun ha => by rw [h.client ha], hlog, h.context.circp, h.context.circcount, h.context.bytes⟩
  · -- only a raw device says something that is not heard
    have hraw : cfg.devproto ≠ .telnet := fun htelnet => hheard (hok htelnet)
    have hafter : a.after (.device buf writes) =
        { a with active := false, idle := a.idle ++ buf, device := a.device ++ buf } :=
      if_neg (h.active ▸ hheard)
    rw [hafter]
    unfold deviceData
    rw [if_neg hraw]
    cases hactive : s.tipactive with
    | false =>
      obtain ⟨hidle, hkept⟩ := addtocircbuf_frame cfg s buf
      have hadd := h.context.addtocircbuf hdo buf
      exact ⟨hidle.trans hactive, nofun, (congrArg (· ++ buf) hkept).trans hlog,
        hadd.circp, hadd.circcount, hadd.bytes⟩
    | true =>
      obtain ⟨sent, hsend, -⟩ := send_to_client_active hactive buf writes
      have hgone : stays buf writes = false := by simpa [hactive] using hheard
      rw [if_pos rfl, hsend, hgone]
      obtain ⟨hidle, hkept⟩ := addtocircbuf_frame cfg
        { s with tipactive := false, client := s.client ++ sent, log := s.log ++ buf } buf
      have hcontext : Holds
          { s with tipactive := false, client := s.client ++ sent, log := s.log ++ buf } a.idle :=
        ⟨h.context.circp, h.context.circcount, h.context.bytes⟩
      exact ⟨hidle, nofun, hkept.trans hlog, hcontext.addtocircbuf hdo buf⟩

/-- **Step lemma.** -/
theorem simulates_step (hdo : cfg.docircbuf = true) {e : Event} (h : Simulates s a) (hok : StepOk cfg s e) (hstep : step cfg s e = some s') :
    Simulates s' (a.after e) := by
  have hcontext := h.context
  cases e with
  | device buf writes => exact some.inj hstep ▸ h.device hdo hok
  | connect => exact some.inj hstep ▸ h.connect hdo
  | disconnected =>
    rw [← some.inj hstep]
    exact ⟨rfl, nofun, h.log, hcontext.circp, hcontext.circcount, hcontext.bytes⟩
  | sigusr1 =>
    rw [← some.inj hstep, newrun, if_pos hdo]
    exact ⟨h.active, h.client, h.log, .clear s⟩
  | sigusr2 =>
    rw [← some.inj hstep, terminate, if_pos hdo]
    exact ⟨rfl, nofun, h.log, .clear _⟩

/-! ## Section 5: Runs -/

theorem simulates_run (hdo : cfg.docircbuf = true) {es : List Event} (h : Simulates s a) (hok : Meets (step cfg) (StepOk cfg) s es)
    (hrun : run (step cfg) s es = some s') : Simulates s' (es.foldl Session.after a) := by
  induction es generalizing s a with
  | nil => exact some.inj hrun ▸ h
  | cons e es ih =>
    rw [run_cons, bind_eq_some_iff] at hrun
    obtain ⟨s₁, hs₁, hrun⟩ := hrun
    exact ih (simulates_step hdo h hok.1 hs₁) (hok.2 s₁ hs₁) hrun

theorem client_sees_context (cfg : Config) (hdo : cfg.docircbuf = true) (es : List Event)
    (hok : Meets (step cfg) (StepOk cfg) initcircbuf es) :
    ∃ s, run (step cfg) initcircbuf es = some s ∧
      (s.tipactive = true → s.client = (es.foldl Session.after .begin).expected) ∧
      s.log = (es.foldl Session.after .begin).device := by
  have hbegin : Simulates initcircbuf .begin := ⟨rfl, nofun, rfl, rfl, rfl, nofun⟩
  have htotal : ∀ s e, True → StepOk cfg s e → ∃ s', step cfg s e = some s' ∧ True :=
    fun s e _ _ => by cases e <;> exact ⟨_, rfl, trivial⟩
  obtain ⟨s, hrun, -⟩ := run_total (fun _ => True) htotal trivial hok
  have h := simulates_run hdo hbegin hok hrun
  exact ⟨s, hrun, fun hactive => h.client (h.active ▸ hactive), h.log⟩

theorem client_sees_context_raw : ∃ s,
    run (step ⟨true, .raw⟩) initcircbuf [.device [76, 111] [], .connect, .device [71] []] = some s ∧
      (s.tipactive = true → s.client = [76, 111, 71]) ∧ s.log = [76, 111, 71] :=
  client_sees_context ⟨true, .raw⟩ rfl _ ⟨nofun, fun _ _ => ⟨trivial, fun _ _ => ⟨nofun, fun _ _ => trivial⟩⟩⟩

theorem telnet_context_lost : ∃ s, run (step ⟨true, .telnet⟩) initcircbuf [.device [76] [], .connect] = some s ∧
      s.tipactive = true ∧ s.client = [] ∧
      ([.device [76] [], .connect].foldl Session.after .begin).expected = [76] :=
  ⟨_, rfl, rfl, rfl, rfl⟩

end Emulab.Capture.Context
