import Emulab.Syncd.EventLoop
import Emulab.Syncd.Ledger
import Mathlib.Data.List.TakeWhile

/-! # The accounts of the barriers

  The server is observed by a ledger that is told of every request, of every
  client that goes away and of every SIGHUP. The tables of the server are
  compared with the ledger, and the answers of the server with those that the
  ledger calls for.
-/

namespace Emulab.Syncd

open MachineInt Machine Function Option
open List hiding beq_eq_decide

/-! ## Section 1: The server and its ledger -/

def BarrierReq.key (req : BarrierReq) : List Byte := cstr (req.name.take 63)

def BarrierReq.entry (req : BarrierReq) (sock ipaddr : Nat) (istcp : Bool) : Option Entry :=
  let client : Waiter :=
    { count := req.contribution, sock := sock, istcp := istcp, error := req.error, ipaddr := ipaddr }
  if req.request = BARRIER_INIT then
    some { name := req.key, init := true, waits := req.flags &&& BARRIER_INIT_NOWAIT = 0
           client := client }
  else if req.request = BARRIER_WAIT then
    some { name := req.key, init := false, waits := true, client := client }
  else
    none

def Ledger.request (L : Ledger) (e : Option Entry) : Ledger :=
  match e with
  | some e => L.contribute e
  | none => L

structure Observed where
  server : Server
  ledger : Ledger

def Observed.start (tcpsock udpsock : Nat) : Observed where
  server := .start tcpsock udpsock
  ledger := .start

inductive Event where
  /-- A client connects, and sends a request. -/
  | connect (sock ipaddr : Nat) (req : BarrierReq)
  | datagram (ipaddr : Nat) (req : BarrierReq)
  /-- A client that waits over TCP goes away. -/
  | disconnect (sock : Nat)
  | sighup

/-- The server handles an event, and the ledger is told of it. A descriptor that is open is not
    given to a connection, and only clients that wait are waited for. -/
def Observed.step (o : Observed) : Event → Option Observed
  | .connect sock ipaddr req =>
    if o.server.opened sock then
      some o
    else
      let (error, server) := handleRequest
        { o.server with opened := update o.server.opened sock true } sock ipaddr req true
      some {
        server := if error ≠ 0 then server.close sock else server
        ledger := o.ledger.request (req.entry sock ipaddr true) }
  | .datagram ipaddr req =>
    some {
      server := (handleRequest o.server o.server.udpsock ipaddr req false).2
      ledger := o.ledger.request (req.entry o.server.udpsock ipaddr false) }
  | .disconnect sock =>
    match o.server.tcpsockets sock with
    | some (.barrier _) => do
      let server ← removeTcpclient (o.server.close sock) sock
      some { server := server, ledger := o.ledger.disconnect sock }
    | _ => some o
  | .sighup => some { server := clearBarriers o.server, ledger := o.ledger.clear }

/-! ## Section 2: Barriers and accounts -/

/-- A barrier is what the contributions under its name come to. -/
structure BarrierOk (es : List Entry) (error : Int) (b : Barrier) : Prop where
  count : b.count = balance es
  waiters : b.waiters = waiting es
  error : b.error = error

structure Accounts (bs : List Barrier) (L : Ledger) : Prop where
  names : (bs.map (·.name)).Nodup
  short : ∀ b ∈ bs, b.name.length < 64
  barrier : ∀ b ∈ bs, BarrierOk (L.of b.name) (L.error b.name) b
  /-- Nothing is known under another name. -/
  other : ∀ name, (∀ b ∈ bs, b.name ≠ name) → L.of name = [] ∧ L.error name = 0

section

variable {s : Server} {L L' : Ledger}

theorem Accounts.unique {bs : List Barrier} (h : Accounts bs L) {b b' : Barrier} (hb : b ∈ bs)
    (hb' : b' ∈ bs) (hname : b.name = b'.name) : b = b' :=
  inj_on_of_nodup_map h.names hb hb' hname

theorem Accounts.put (h : Accounts s.allbarriers L) (htables : TablesOk s) {b b₀ : Barrier}
    (hb₀ : b₀ ∈ s.allbarriers) (haddr : b₀.addr = b.addr) (hname : b₀.name = b.name)
    (hsame : ∀ m ≠ b.name, L'.of m = L.of m ∧ L'.error m = L.error m)
    (hb : BarrierOk (L'.of b.name) (L'.error b.name) b) : Accounts (putBarrier s b).allbarriers L' := by
  have hother : ∀ b' ∈ s.allbarriers, b'.addr ≠ b.addr → b'.name ≠ b.name := by
    intro b' hb' hne heq
    apply hne
    rw [h.unique hb' hb₀ (heq.trans hname.symm), haddr]
  have hnames : (putBarrier s b).allbarriers.map (·.name) = s.allbarriers.map (·.name) := by
    unfold putBarrier
    rw [List.map_map]
    apply map_congr_left
    intro b' hb'
    show (if b'.addr = b.addr then b else b').name = b'.name
    split
    · rename_i heq
      rw [htables.unique hb' hb₀ (heq.trans haddr.symm), hname]
    · rfl
  constructor
  · rw [hnames]
    exact h.names
  · intro b' hb'
    rcases mem_putBarrier.mp hb' with ⟨hb', -⟩ | ⟨rfl, -⟩
    · exact h.short b' hb'
    · rw [← hname]
      exact h.short b₀ hb₀
  · intro b' hb'
    rcases mem_putBarrier.mp hb' with ⟨hb', hne⟩ | ⟨rfl, -⟩
    · obtain ⟨hof, herror⟩ := hsame b'.name (hother b' hb' hne)
      rw [hof, herror]
      exact h.barrier b' hb'
    · exact hb
  · intro name hname'
    have hall : ∀ m, m ∈ s.allbarriers.map (·.name) → m ≠ name := by
      intro m hm
      rw [← hnames] at hm
      obtain ⟨b', hb', rfl⟩ := mem_map.mp hm
      exact hname' b' hb'
    have hne : name ≠ b.name := by
      rintro rfl
      exact hall _ (hname ▸ mem_map_of_mem hb₀) rfl
    obtain ⟨hof, herror⟩ := hsame name hne
    rw [hof, herror]
    exact h.other name fun b' hb' => hall _ (mem_map_of_mem hb')

theorem Accounts.remove (h : Accounts s.allbarriers L) (htables : TablesOk s) {b₀ : Barrier}
    (hb₀ : b₀ ∈ s.allbarriers) (hsame : ∀ m ≠ b₀.name, L'.of m = L.of m ∧ L'.error m = L.error m)
    (hnil : L'.of b₀.name = [] ∧ L'.error b₀.name = 0) : Accounts (removeBarrier s b₀.addr).allbarriers L' := by
  have hmem : ∀ {b'}, b' ∈ (removeBarrier s b₀.addr).allbarriers ↔
      b' ∈ s.allbarriers ∧ b'.addr ≠ b₀.addr := mem_removeBarrier htables.addrs
  constructor
  · exact h.names.sublist (eraseP_sublist.map _)
  · intro b' hb'
    exact h.short b' (hmem.mp hb').1
  · intro b' hb'
    obtain ⟨hb', hne⟩ := hmem.mp hb'
    obtain ⟨hof, herror⟩ := hsame b'.name fun heq => hne (by rw [h.unique hb' hb₀ heq])
    rw [hof, herror]
    exact h.barrier b' hb'
  · intro name hname
    by_cases heq : name = b₀.name
    · rw [heq]
      exact hnil
    · obtain ⟨hof, herror⟩ := hsame name heq
      rw [hof, herror]
      refine h.other name fun b' hb' => ?_
      by_cases haddr : b'.addr = b₀.addr
      · rw [htables.unique hb' hb₀ haddr]
        exact fun h' => heq h'.symm
      · exact hname b' (hmem.mpr ⟨hb', haddr⟩)

/-! ## Section 3: Requests -/

/-- What a client is told. -/
def Waiter.answer (w : Waiter) (result : Int) : Answer where
  sock := w.sock
  ipaddr := w.ipaddr
  istcp := w.istcp
  result := result

def Ledger.answers (L : Ledger) : List Answer :=
  L.answered.map (fun p => p.1.answer p.2) ++ L.excused.map (·.answer 0)

theorem Accounts.check (h : Accounts s.allbarriers L) (htables : TablesOk s) {b b₀ : Barrier}
    (hb₀ : b₀ ∈ s.allbarriers) (haddr : b₀.addr = b.addr) (hname : b₀.name = b.name)
    (hsame : ∀ m ≠ b.name, L'.of m = L.of m ∧ L'.error m = L.error m)
    (hb : BarrierOk (L'.of b.name) (L'.error b.name) b) {s' : Server} (hs' : s'.allbarriers = s.allbarriers) :
    Accounts (checkBarrier s' b).allbarriers (L'.cross b.name) := by
  unfold checkBarrier
  by_cases hcount : b.count = 0
  · have hzero : balance (L'.of b.name) = 0 := hb.count ▸ hcount
    obtain ⟨hof, herror, -⟩ := Ledger.cross_of_zero hzero
    rw [if_neg (not_not.mpr hcount), releaseAll_eq]
    have hremove : (removeBarrier s b₀.addr).allbarriers = s'.allbarriers.eraseP fun b' => b'.addr = b.addr := by
      rw [hs', ← haddr]
      rfl
    show Accounts (s'.allbarriers.eraseP fun b' => b'.addr = b.addr) _
    rw [← hremove]
    refine h.remove htables hb₀ (fun m hm => ?_) (by rw [hname]; exact ⟨hof, herror⟩)
    obtain ⟨hof', herror'⟩ := Ledger.of_cross L' (hname ▸ hm)
    obtain ⟨hof, herror⟩ := hsame m (hname ▸ hm)
    exact ⟨hof'.trans hof, herror'.trans herror⟩
  · have hne : balance (L'.of b.name) ≠ 0 := hb.count ▸ hcount
    rw [if_pos hcount, Ledger.cross_of_ne hne]
    have hput := h.put htables hb₀ haddr hname hsame hb
    unfold putBarrier at hput ⊢
    rw [hs']
    exact hput

variable {b : Barrier}

/-- The clients of a barrier that is crossed are told what the ledger says. -/
theorem checkBarrier_answers (hb : BarrierOk (L'.of b.name) (L'.error b.name) b)
    {s' : Server} (hanswers : s'.answers.Perm L'.answers) :
    (checkBarrier s' b).answers.Perm (L'.cross b.name).answers := by
  unfold checkBarrier
  by_cases hcount : b.count = 0
  · have hzero : balance (L'.of b.name) = 0 := hb.count ▸ hcount
    obtain ⟨-, -, hanswered⟩ := Ledger.cross_of_zero hzero
    rw [if_neg (not_not.mpr hcount), releaseAll_eq]
    have hnew : ((waiting (L'.of b.name)).map fun w => (w, L'.error b.name)).map
        (fun p : Waiter × Int => p.1.answer p.2) = answersTo b.waiters b.error := by
      rw [hb.waiters, hb.error, List.map_map]
      rfl
    unfold Ledger.answers
    rw [hanswered, Ledger.cross_excused, map_append, hnew]
    show (s'.answers ++ answersTo b.waiters b.error).Perm _
    refine (hanswers.append_right _).trans ?_
    unfold Ledger.answers
    rw [append_assoc, append_assoc]
    exact List.Perm.append_left _ perm_append_comm
  · have hne : balance (L'.of b.name) ≠ 0 := hb.count ▸ hcount
    rw [if_pos hcount, Ledger.cross_of_ne hne]
    exact hanswers

theorem checkBarrier_nonzero (htables : TablesOk s)
    (hnonzero : ∀ b' ∈ s.allbarriers, b'.addr ≠ b.addr → b'.count ≠ 0) {s' : Server}
    (hs' : s'.allbarriers = s.allbarriers) : ∀ b' ∈ (checkBarrier s' b).allbarriers, b'.count ≠ 0 := by
  intro b' hb'
  unfold checkBarrier at hb'
  split at hb'
  · rename_i hcount
    rcases mem_putBarrier.mp hb' with ⟨hb', hne⟩ | ⟨rfl, -⟩
    · exact hnonzero b' (hs' ▸ hb') hne
    · exact hcount
  · rw [releaseAll_eq] at hb'
    obtain ⟨hb', hne⟩ := (mem_removeBarrier (by exact hs' ▸ htables.addrs)).mp hb'
    exact hnonzero b' (hs' ▸ hb') hne

def BarrierReq.Valid (req : BarrierReq) : Prop :=
  req.request = BARRIER_INIT ∨ req.request = BARRIER_WAIT

/-- What can be said of a request. -/
structure RequestOk (s : Server) (req : BarrierReq) : Prop where
  /-- A name that is in use has an end. -/
  named : (∃ b ∈ s.allbarriers, b.name = req.key) → 0 ∈ req.name
  /-- A request that is rejected is for a barrier that exists. -/
  known : ¬req.Valid → ∃ b ∈ s.allbarriers, b.name = cstr req.name
  range : req.Valid → -2 ^ 31 ≤ (findBarrier s req.name).2.count + req.contribution ∧
    (findBarrier s req.name).2.count + req.contribution < 2 ^ 31
  room : HasRoom s req

instance (req : BarrierReq) : Decidable req.Valid :=
  inferInstanceAs (Decidable (req.request = BARRIER_INIT ∨ req.request = BARRIER_WAIT))

instance (s : Server) (req : BarrierReq) : Decidable (RequestOk s req) :=
  decidable_of_iff (((∃ b ∈ s.allbarriers, b.name = req.key) → 0 ∈ req.name) ∧
      (¬req.Valid → ∃ b ∈ s.allbarriers, b.name = cstr req.name) ∧
      (req.Valid → -2 ^ 31 ≤ (findBarrier s req.name).2.count + req.contribution ∧
        (findBarrier s req.name).2.count + req.contribution < 2 ^ 31) ∧
      HasRoom s req)
    ⟨fun ⟨hnamed, hknown, hrange, hroom⟩ => ⟨hnamed, hknown, hrange, hroom⟩,
      fun ⟨hnamed, hknown, hrange, hroom⟩ => ⟨hnamed, hknown, hrange, hroom⟩⟩

variable {req : BarrierReq}

theorem BarrierReq.key_eq (h : 0 ∈ req.name) : req.key = cstr req.name := by
  have hlen : (cstr req.name).length ≤ 63 := by
    have hne : (cstr req.name).length ≠ req.name.length := by
      intro heq
      have hall : cstr req.name = req.name := (takeWhile_sublist _).eq_of_length heq
      have hmem : (0 : Byte) ∈ cstr req.name := by
        rw [hall]
        exact h
      have := mem_takeWhile_imp hmem
      simp at this
    have hle : (cstr req.name).length ≤ req.name.length := (takeWhile_sublist _).length_le
    have := req.size
    omega
  unfold BarrierReq.key
  unfold cstr at hlen ⊢
  rw [← take_takeWhile, take_of_length_le hlen]

theorem BarrierReq.key_length (req : BarrierReq) : req.key.length < 64 := by
  have : req.key.length ≤ (req.name.take 63).length := (takeWhile_sublist _).length_le
  rw [length_take] at this
  omega

theorem Accounts.find (h : Accounts s.allbarriers L)
    (hnamed : (∃ b ∈ s.allbarriers, b.name = req.key) → 0 ∈ req.name) :
    (findBarrier s req.name).2.name = req.key ∧ Accounts (findBarrier s req.name).1.allbarriers L := by
  unfold findBarrier
  cases hfind : s.allbarriers.find? fun b => b.name = cstr req.name with
  | some b =>
    refine ⟨?_, h⟩
    have hname : b.name = cstr req.name := by simpa using List.find?_some hfind
    have hshort := h.short b (mem_of_find?_eq_some hfind)
    show b.name = req.key
    rw [BarrierReq.key_eq, hname]
    by_contra hnot
    -- a name without an end is longer than the name of any barrier
    have hall : cstr req.name = req.name := by
      unfold cstr
      rw [takeWhile_eq_self_iff]
      intro x hx
      have : x ≠ 0 := fun heq => hnot (heq ▸ hx)
      simpa using this
    rw [hname, hall, req.size] at hshort
    omega
  | none =>
    have hnone : ∀ b ∈ s.allbarriers, b.name ≠ req.key := by
      intro b hb heq
      have hkey := BarrierReq.key_eq (hnamed ⟨b, hb, heq⟩)
      have := List.find?_eq_none.mp hfind b hb
      simp [heq, hkey] at this
    obtain ⟨hof, herror⟩ := h.other req.key hnone
    refine ⟨rfl, ?_⟩
    constructor
    · show (req.key :: s.allbarriers.map (·.name)).Nodup
      rw [nodup_cons]
      refine ⟨?_, h.names⟩
      intro hmem
      obtain ⟨b, hb, heq⟩ := mem_map.mp hmem
      exact hnone b hb heq
    · intro b hb
      rcases mem_cons.mp hb with rfl | hb
      · exact req.key_length
      · exact h.short b hb
    · intro b hb
      rcases mem_cons.mp hb with rfl | hb
      · show BarrierOk (L.of req.key) (L.error req.key) _
        rw [hof, herror]
        exact ⟨rfl, rfl, rfl⟩
      · exact h.barrier b hb
    · intro name hname
      exact h.other name fun b hb => hname b (mem_cons_of_mem _ hb)

theorem RequestOk.rejected (hok : RequestOk s req) (hbad : ¬req.Valid)
    (sock ipaddr : Nat) (istcp : Bool) : (handleRequest s sock ipaddr req istcp).2 = s := by
  obtain ⟨b, hb, hname⟩ := hok.known hbad
  have hfound : (findBarrier s req.name).1 = s := by
    unfold findBarrier
    cases hfind : s.allbarriers.find? fun b => b.name = cstr req.name with
    | some b => rfl
    | none =>
      have := List.find?_eq_none.mp hfind b hb
      simp [hname] at this
  obtain ⟨hinit, hwait⟩ := not_or.mp hbad
  unfold handleRequest
  simp only
  rw [if_neg hinit, if_neg hwait, hfound]

theorem Accounts.contribute (h : Accounts s.allbarriers L) (htables : TablesOk s)
    (hnonzero : ∀ b ∈ s.allbarriers, b.count ≠ 0) (hok : RequestOk s req)
    (hvalid : req.Valid) {e : Entry} (hname : e.name = req.key) (hamount : e.amount = req.contribution)
    (haddr : (findBarrier s req.name).2.addr = b.addr) (hbname : b.name = req.key)
    (hcount : b.count = requestCount s req)
    (hwaiters : b.waiters = (findBarrier s req.name).2.waiters ++ waiting [e])
    (hsame : ∀ m, L'.entries = L.entries ++ [e] ∧ (m ≠ e.name → L'.error m = L.error m))
    (herror : b.error = L'.error e.name) {s' : Server}
    (hs' : s'.allbarriers = (findBarrier s req.name).1.allbarriers) (hanswers : s'.answers.Perm L'.answers) :
    Accounts (checkBarrier s' b).allbarriers (L'.cross e.name) ∧
      (∀ b' ∈ (checkBarrier s' b).allbarriers, b'.count ≠ 0) ∧
      (checkBarrier s' b).answers.Perm (L'.cross e.name).answers := by
  obtain ⟨hfname, hfound⟩ := h.find hok.named
  obtain ⟨htables₁, hmem⟩ := findBarrier_spec htables req.name
  have heq : e.name = b.name := hname.trans hbname.symm
  have hof : ∀ m, L'.of m = L.of m ++ [e].filter fun e => e.name = m := by
    intro m
    unfold Ledger.of
    rw [(hsame m).1, filter_append]
  have hself : L'.of b.name = L.of b.name ++ [e] := by
    rw [hof, filter_cons_of_pos (by simp [heq]), filter_nil]
  -- the barrier that is found is that of the account
  have hold := hfound.barrier _ hmem
  rw [hfname, ← hbname] at hold
  have hb : BarrierOk (L'.of b.name) (L'.error b.name) b := by
    constructor
    · obtain ⟨hlo, hhi⟩ := hok.range hvalid
      rw [hcount, hself, balance_append, ← hold.count]
      unfold requestCount
      rw [toInt32_of_range hlo hhi, balance_eq_sum [e]]
      simp [hamount]
    · rw [hwaiters, hself, waiting_append, ← hold.waiters]
    · rw [herror, heq]
  have hrest : ∀ m ≠ b.name, L'.of m = L.of m ∧ L'.error m = L.error m := by
    intro m hm
    have hne : m ≠ e.name := heq ▸ hm
    rw [hof, filter_cons_of_neg (by simpa using hne.symm), filter_nil, append_nil]
    exact ⟨rfl, (hsame m).2 hne⟩
  rw [heq]
  refine ⟨hfound.check htables₁ hmem haddr (hfname.trans hbname.symm) hrest hb hs', ?_,
    checkBarrier_answers hb hanswers⟩
  refine checkBarrier_nonzero htables₁ (fun b' hb' hne => ?_) hs'
  -- only a barrier that has just been created has a count of zero
  unfold findBarrier at hb' haddr
  split at hb'
  · exact hnonzero b' hb'
  · rename_i hnone
    rw [hnone] at haddr
    rcases mem_cons.mp hb' with rfl | hb'
    · exact absurd haddr hne
    · exact hnonzero b' hb'

theorem Accounts.request (h : Accounts s.allbarriers L) (htables : TablesOk s)
    (hnonzero : ∀ b ∈ s.allbarriers, b.count ≠ 0) (hanswers : s.answers.Perm L.answers)
    (hok : RequestOk s req) (sock ipaddr : Nat) (istcp : Bool) :
    Accounts (handleRequest s sock ipaddr req istcp).2.allbarriers (L.request (req.entry sock ipaddr istcp)) ∧
      (∀ b ∈ (handleRequest s sock ipaddr req istcp).2.allbarriers, b.count ≠ 0) ∧
      (handleRequest s sock ipaddr req istcp).2.answers.Perm
        (L.request (req.entry sock ipaddr istcp)).answers := by
  obtain ⟨hfname, hfound⟩ := h.find hok.named
  obtain ⟨-, hmem⟩ := findBarrier_spec htables req.name
  have hold := hfound.barrier _ hmem
  have hsent : (findBarrier s req.name).1.answers = s.answers := by
    unfold findBarrier
    split
    · rfl
    · rfl
  have hcases := handleRequest_cases s sock ipaddr req istcp
  generalize hr : handleRequest s sock ipaddr req istcp = r at hcases
  cases hcases with
  | rejected hbad =>
    have hnot : ¬req.Valid := not_or.mpr hbad
    have hs := hok.rejected hnot sock ipaddr istcp
    rw [hr] at hs
    have hentry : req.entry sock ipaddr istcp = none := by
      unfold BarrierReq.entry
      rw [if_neg hbad.1, if_neg hbad.2]
    rw [hs, hentry]
    exact ⟨h, hnonzero, hanswers⟩
  | nowait hreq =>
    generalize he : ({ name := req.key, init := true, waits := false
                       client := { count := req.contribution, sock := sock, istcp := istcp
                                   error := req.error, ipaddr := ipaddr } } : Entry) = e
    have hentry : req.entry sock ipaddr istcp = some e := by
      have hwaits : decide (req.flags &&& BARRIER_INIT_NOWAIT = 0) = false := decide_eq_false hreq.2
      unfold BarrierReq.entry
      rw [if_pos hreq.1, ← he, hwaits]
    have hledger : L.request (some e) =
        { L with entries := L.entries ++ [e], excused := L.excused ++ [e.client] }.cross e.name := by
      have hwaits : e.waits = false := by rw [← he]
      unfold Ledger.request Ledger.contribute
      simp [hwaits]
    rw [hentry, hledger]
    apply h.contribute htables hnonzero hok (.inl hreq.1)
    · rw [← he]
    · rw [← he]
      rfl
    · rfl
    · exact hfname
    · rfl
    · rw [← he]
      simp [waiting]
    · exact fun m => ⟨rfl, fun _ => rfl⟩
    · show (findBarrier s req.name).2.error = L.error e.name
      rw [hold.error, hfname, ← he]
    · unfold releaseClient
      split
      · rfl
      · rfl
    · have hrel : (releaseClient (findBarrier s req.name).1 sock ipaddr istcp 0).answers =
          s.answers ++ [e.client.answer 0] := by
        rw [← hsent, ← he]
        unfold releaseClient
        split
        · rfl
        · rfl
      rw [hrel]
      refine (hanswers.append_right _).trans ?_
      unfold Ledger.answers
      rw [map_append, append_assoc]
      rfl
  | recorded w hrec hw =>
    obtain ⟨e, hentry, hwaits, hclient, hname, hamount⟩ : ∃ e, req.entry sock ipaddr istcp = some e ∧
        e.waits = true ∧ e.client = w ∧ e.name = req.key ∧ e.amount = req.contribution := by
      unfold BarrierReq.entry
      rcases hrec with hwait | ⟨hinit, hflags⟩
      · have hinit : req.request ≠ BARRIER_INIT := by
          rw [hwait]
          decide
        rw [if_neg hinit, if_pos hwait]
        refine ⟨_, rfl, rfl, hw.symm, rfl, ?_⟩
        unfold BarrierReq.contribution
        rw [if_neg hinit]
        rfl
      · rw [if_pos hinit]
        exact ⟨_, rfl, decide_eq_true hflags, hw.symm, rfl, rfl⟩
    have hvalid : req.Valid := by
      rcases hrec with hwait | ⟨hinit, -⟩
      · exact .inr hwait
      · exact .inl hinit
    have hledger : L.request (some e) = { L with
          entries := L.entries ++ [e]
          error := update L.error e.name (max (L.error e.name) e.client.error)
          recorded := L.recorded ++ [e.client] }.cross e.name := by
      unfold Ledger.request Ledger.contribute
      simp [hwaits]
    rw [hentry, hledger]
    unfold recordWaiter
    apply h.contribute htables hnonzero hok hvalid hname hamount
    · rfl
    · exact hfname
    · rfl
    · simp [waiting, hwaits, hclient]
    · exact fun m => ⟨rfl, fun hm => update_of_ne hm _ _⟩
    · show (if w.error > (findBarrier s req.name).2.error then w.error
        else (findBarrier s req.name).2.error) = update L.error e.name (max (L.error e.name) e.client.error) e.name
      rw [update_self, hold.error, hfname, hname, hclient]
      split
      · omega
      · omega
    · split
      · rfl
      · rfl
    · have hsame : (if w.istcp = true then
          { (findBarrier s req.name).1 with
            tcpsockets := update (findBarrier s req.name).1.tcpsockets w.sock
              (some (.barrier (findBarrier s req.name).2.addr)) }
          else (findBarrier s req.name).1).answers = s.answers := by
        rw [← hsent]
        split
        · rfl
        · rfl
      show List.Perm (Server.answers _) _
      rw [hsame]
      exact hanswers

/-! ## Section 4: Clients go away -/

/-- A client that goes away can do so without harm: it is the last one exactly if its contribution
    is all there is. -/
def DisconnectOk (s : Server) (sock : Nat) : Prop :=
  ∀ b ∈ s.allbarriers, ∀ w ∈ b.waiters, w.istcp = true → w.sock = sock →
    (-2 ^ 31 ≤ b.count - w.count ∧ b.count - w.count < 2 ^ 31) ∧ (b.waiters = [w] ↔ b.count = w.count)

instance (s : Server) (sock : Nat) : Decidable (DisconnectOk s sock) :=
  inferInstanceAs (Decidable (∀ b ∈ s.allbarriers, ∀ w ∈ b.waiters, w.istcp = true → w.sock = sock →
      (-2 ^ 31 ≤ b.count - w.count ∧ b.count - w.count < 2 ^ 31) ∧ (b.waiters = [w] ↔ b.count = w.count)))

/-- The client on a socket is the only one of its barrier on it. -/
theorem TablesOk.waits_once (h : TablesOk s) (hb : b ∈ s.allbarriers) {sock : Nat}
    (hsock : sock ∈ tcpSocks b.waiters) : ∃ w ∈ b.waiters, w.istcp = true ∧ w.sock = sock ∧
      (b.waiters.filter fun w => w.istcp && w.sock = sock) = [w] := by
  have hone : (b.waiters.filter fun w => w.istcp && w.sock = sock).length = 1 := by
    have hcount := count_eq_one_of_mem (h.once b hb) hsock
    unfold tcpSocks at hcount
    rw [count_eq_countP, countP_map, countP_filter, countP_eq_length_filter] at hcount
    rw [← hcount]
    congr 1
    apply filter_congr
    intro w _
    simp [Bool.and_comm, beq_eq_decide]
  obtain ⟨w, hw⟩ := length_eq_one_iff.mp hone
  have hmem : w ∈ b.waiters.filter fun w => w.istcp && w.sock = sock := by
    rw [hw]
    exact mem_singleton_self w
  obtain ⟨hin, hprop⟩ := mem_filter.mp hmem
  simp only [Bool.and_eq_true, decide_eq_true_eq] at hprop
  exact ⟨w, hin, hprop.1, hprop.2, hw⟩

/-- Where at most one element is in question, erasing the first one erases all. -/
theorem eraseP_eq_filter_not {α : Type} {p : α → Bool} {l : List α} (h : (l.filter p).length ≤ 1) :
    l.eraseP p = l.filter fun a => !p a := by
  induction l with
  | nil => rfl
  | cons a l ih =>
    cases ha : p a with
    | true =>
      rw [filter_cons_of_pos ha, length_cons] at h
      rw [eraseP_cons_of_pos ha, filter_cons_of_neg (by simp [ha])]
      symm
      rw [filter_eq_self]
      intro a' ha'
      by_contra hnot
      have hmem : a' ∈ l.filter p := mem_filter.mpr ⟨ha', by simpa using hnot⟩
      have := length_pos_of_mem hmem
      omega
    | false =>
      rw [filter_cons_of_neg (by simp [ha])] at h
      rw [eraseP_cons_of_neg (by simp [ha]), filter_cons_of_pos (by simp [ha]), ih h]

theorem withdrawCount_eq (sock : Nat) (count : Int) (waiters : List Waiter) : withdrawCount sock count waiters =
      (waiters.filter fun w => w.sock = sock).foldl (fun c w => toInt32 (c - w.count)) count := by
  induction waiters generalizing count with
  | nil => rfl
  | cons w waiters ih =>
    by_cases heq : w.sock = sock
    · rw [filter_cons_of_pos (by simpa using heq), foldl_cons, ← ih]
      unfold withdrawCount
      rw [foldl_cons, if_pos heq]
    · rw [filter_cons_of_neg (by simpa using heq), ← ih]
      unfold withdrawCount
      rw [foldl_cons, if_neg heq]

/-- What remains of a barrier without one of its clients. -/
theorem TablesOk.withdrawn_eq (h : TablesOk s) (hb : b ∈ s.allbarriers) {sock : Nat}
    (hlisten : sock ≠ s.udpsock) {w : Waiter} (hw : (b.waiters.filter fun w => w.istcp && w.sock = sock) = [w]) :
    (withdrawn b sock).count = toInt32 (b.count - w.count) ∧
      (withdrawn b sock).waiters = b.waiters.filter fun w => !(w.istcp && w.sock = sock) := by
  -- those that wait over UDP have another socket
  have hall : ∀ w ∈ b.waiters, (w.istcp && decide (w.sock = sock)) = decide (w.sock = sock) := by
    intro w hw
    cases htcp : w.istcp with
    | true => simp
    | false =>
      rw [h.udp b hb w hw htcp]
      simp [hlisten.symm]
  constructor
  · have hfilter : (b.waiters.filter fun w => w.sock = sock) = [w] := by
      rw [← hw]
      exact (filter_congr hall).symm
    show withdrawCount sock b.count b.waiters = _
    rw [withdrawCount_eq, hfilter]
    rfl
  · show (b.waiters.eraseP fun w => w.sock = sock) = _
    have hnot : ∀ w ∈ b.waiters, (!(w.istcp && decide (w.sock = sock))) = !decide (w.sock = sock) :=
      fun w hw => congrArg _ (hall w hw)
    rw [filter_congr hnot]
    have hle : (b.waiters.filter fun w => w.sock = sock).length ≤ 1 := by
      rw [← filter_congr hall, hw]
      rfl
    exact eraseP_eq_filter_not hle

/-- The ledger finds the client of a socket among the contributions of one name. -/
theorem Accounts.gone (h : Accounts s.allbarriers L) (htables : TablesOk s)
    (hb : b ∈ s.allbarriers) {sock : Nat} (hsock : sock ∈ tcpSocks b.waiters) :
    ∀ e ∈ L.entries, e.waitsAt sock = true → e.name = b.name := by
  intro e he hat
  have hof : e ∈ L.of e.name := mem_filter.mpr ⟨he, by simp⟩
  obtain ⟨b', hb', hname⟩ : ∃ b' ∈ s.allbarriers, b'.name = e.name := by
    by_contra hnot
    have hnone : ∀ b' ∈ s.allbarriers, b'.name ≠ e.name := fun b' hb' heq => hnot ⟨b', hb', heq⟩
    rw [(h.other e.name hnone).1] at hof
    cases hof
  unfold Entry.waitsAt at hat
  simp only [Bool.and_eq_true, decide_eq_true_eq] at hat
  obtain ⟨⟨hwaits, htcp⟩, heq⟩ := hat
  have hmem : e.client ∈ b'.waiters := by
    rw [(h.barrier b' hb').waiters, hname]
    exact mem_map_of_mem (mem_filter.mpr ⟨hof, hwaits⟩)
  have hptr' := htables.tcp b' hb' sock (mem_tcpSocks.mpr ⟨e.client, hmem, htcp, heq⟩)
  rw [htables.tcp b hb sock hsock] at hptr'
  have haddr := BarrierPtr.barrier.inj (some.inj hptr')
  rw [htables.unique hb hb' haddr, hname]

/-- A client goes away. -/
theorem Accounts.disconnect (h : Accounts s.allbarriers L) (htables : TablesOk s)
    (hL : LedgerOk L) (hnonzero : ∀ b ∈ s.allbarriers, b.count ≠ 0) {sock addr : Nat}
    (hptr : s.tcpsockets sock = some (.barrier addr)) (hok : DisconnectOk s sock) :
    ∃ s', removeTcpclient (s.close sock) sock = some s' ∧ TablesOk s' ∧
      Accounts s'.allbarriers (L.disconnect sock) ∧ (∀ b ∈ s'.allbarriers, b.count ≠ 0) ∧
      s'.answers = s.answers ∧ (L.disconnect sock).answers = L.answers := by
  obtain ⟨s', hs', htables'⟩ := htables.disconnect hptr
  obtain ⟨b, hb, -, hsock, -⟩ := htables.waiting hptr
  obtain ⟨w, hw, htcp, hwsock, hfilter⟩ := htables.waits_once hb hsock
  have hlisten : sock ≠ s.udpsock := by
    rintro rfl
    rw [(htables.listening _).mpr (.inr rfl)] at hptr
    cases hptr
  obtain ⟨hcount, hwaiters⟩ := htables.withdrawn_eq hb hlisten hfilter
  obtain ⟨⟨hlo, hhi⟩, hlast⟩ := hok b hb w hw htcp hwsock
  rw [toInt32_of_range hlo hhi] at hcount
  have hold := h.barrier b hb
  have hgone := h.gone htables hb hsock
  -- the one contribution that is withdrawn
  obtain ⟨e, he, hclient⟩ : ∃ e, (L.of b.name).filter (·.waitsAt sock) = [e] ∧ e.client = w := by
    have hmap : ((L.of b.name).filter (·.waitsAt sock)).map (·.client) = [w] := by
      rw [waiting_at, ← hold.waiters, hfilter]
    obtain ⟨e, he, hclient⟩ := map_eq_singleton_iff.mp hmap
    exact ⟨e, he, hclient⟩
  have hall : L.entries.filter (·.waitsAt sock) = [e] := by
    rw [← he]
    unfold Ledger.of
    rw [List.filter_filter]
    apply filter_congr
    intro e' he'
    cases hat : e'.waitsAt sock with
    | true => simp [hgone e' he' hat]
    | false => rfl
  have hmem : e ∈ L.entries ∧ e.waitsAt sock = true := by
    rw [← mem_filter, hall]
    exact mem_singleton_self e
  have hename : e.name = b.name := hgone e hmem.1 hmem.2
  have hamount : e.amount = w.count := by
    unfold Entry.amount
    cases hinit : e.init with
    | true => rw [if_pos rfl, hclient]
    | false =>
      rw [← hclient, hL.counts e hmem.1 hinit]
      rfl
  generalize hL₁ : ({ L with
    entries := L.entries.filter fun e => !e.waitsAt sock
    removed := L.removed ++ [e.client] } : Ledger) = L₁
  have hdisc : L.disconnect sock = L₁.cross b.name := by
    unfold Ledger.disconnect
    simp only
    rw [hall, foldl_cons, foldl_nil, hename, ← hL₁]
    rfl
  have hof : ∀ m, L₁.of m = (L.of m).filter fun e => !e.waitsAt sock := by
    intro m
    rw [← hL₁]
    unfold Ledger.of
    simp only
    rw [filter_comm]
  have hself : BarrierOk (L₁.of b.name) (L₁.error b.name) (withdrawn b sock) := by
    constructor
    · have hperm := balance_perm (filter_append_perm (·.waitsAt sock) (L.of b.name))
      rw [balance_append, he, ← hold.count, balance_eq_sum [e]] at hperm
      rw [hcount, hof]
      simp only [map_cons, map_nil, sum_cons, sum_nil, hamount] at hperm
      omega
    · rw [hwaiters, hof, waiting_filter, hold.waiters]
    · rw [← hL₁]
      exact hold.error
  have hsame : ∀ m ≠ b.name, L₁.of m = L.of m ∧ L₁.error m = L.error m := by
    intro m hm
    constructor
    · rw [hof, filter_eq_self]
      intro e' he'
      obtain ⟨hin, hname⟩ := mem_filter.mp he'
      cases hat : e'.waitsAt sock with
      | true => exact absurd ((of_decide_eq_true hname).symm.trans (hgone e' hin hat)) hm
      | false => rfl
    · rw [← hL₁]
  have hanswers : L₁.answers = L.answers := by rw [← hL₁]; rfl
  -- no client remains exactly if nothing remains
  have hiff : (withdrawn b sock).waiters = [] ↔ (withdrawn b sock).count = 0 := by
    rw [hcount, hwaiters, filter_eq_nil_iff]
    constructor
    · intro hnil
      have hself : (b.waiters.filter fun w => w.istcp && w.sock = sock) = b.waiters := by
        rw [filter_eq_self]
        intro w' hw'
        simpa using hnil w' hw'
      rw [hfilter] at hself
      have := hlast.mp hself.symm
      omega
    · intro hzero w' hw'
      rw [hlast.mpr (by omega)] at hw'
      rw [mem_singleton.mp hw']
      simp [htcp, hwsock]
  refine ⟨s', hs', htables', ?_⟩
  rw [hdisc]
  rw [removeTcpclient_eq htables hb hsock] at hs'
  rw [← some.inj hs']
  by_cases hnil : (withdrawn b sock).waiters = []
  · have hzero : balance (L₁.of b.name) = 0 := hself.count.symm.trans (hiff.mp hnil)
    obtain ⟨hof', herror', hanswered⟩ := Ledger.cross_of_zero hzero
    rw [if_pos hnil]
    refine ⟨h.remove htables hb (fun m hm => ?_) ⟨hof', herror'⟩, ?_, rfl, ?_⟩
    · obtain ⟨hof, herror⟩ := hsame m hm
      obtain ⟨hof', herror'⟩ := Ledger.of_cross L₁ hm
      exact ⟨hof'.trans hof, herror'.trans herror⟩
    · intro b' hb'
      exact hnonzero b' (mem_of_mem_eraseP hb')
    · unfold Ledger.answers
      rw [hanswered, Ledger.cross_excused, ← hself.waiters, hnil, map_nil, append_nil]
      exact hanswers
  · have hne : balance (L₁.of b.name) ≠ 0 := fun hzero =>
      hnil (hiff.mpr (hself.count.trans hzero))
    rw [if_neg hnil, Ledger.cross_of_ne hne]
    refine ⟨h.put htables hb rfl rfl hsame hself, ?_, rfl, hanswers⟩
    intro b' hb'
    rcases mem_putBarrier.mp hb' with ⟨hb', -⟩ | ⟨rfl, -⟩
    · exact hnonzero b' hb'
    · exact fun hzero => hnil (hiff.mpr hzero)

/-! ## Section 5: Runs -/

theorem perm_flatMap_filter {α β : Type} [DecidableEq β] (f : α → β) {keys : List β} {l : List α}
    (hkeys : keys.Nodup) (hl : ∀ a ∈ l, f a ∈ keys) :
    (keys.flatMap fun k => l.filter fun a => f a = k).Perm l := by
  induction keys generalizing l with
  | nil =>
    rw [eq_nil_iff_forall_not_mem.mpr fun a ha => not_mem_nil (hl a ha)]
    rfl
  | cons k keys ih =>
    obtain ⟨hk, hkeys⟩ := nodup_cons.mp hkeys
    have hrest := ih hkeys (l := l.filter fun a => !decide (f a = k)) fun a ha => by
      obtain ⟨ha, hne⟩ := mem_filter.mp ha
      exact (mem_cons.mp (hl a ha)).resolve_left (by simpa using hne)
    have hsame : (keys.flatMap fun k' => l.filter fun a => f a = k') =
        keys.flatMap fun k' => (l.filter fun a => !decide (f a = k)).filter fun a => f a = k' := by
      apply flatMap_congr
      intro k' hk'
      rw [List.filter_filter]
      apply filter_congr
      intro a _
      by_cases ha : f a = k'
      · have : f a ≠ k := fun heq => hk (heq ▸ ha ▸ hk')
        simp [ha, ha ▸ this]
      · simp [ha]
    rw [flatMap_cons, hsame]
    refine (List.Perm.append_left _ hrest).trans ?_
    exact filter_append_perm (fun a => decide (f a = k)) l

theorem Accounts.waiting (h : Accounts s.allbarriers L) :
    (s.allbarriers.flatMap (·.waiters)).Perm (waiting L.entries) := by
  have hkeys : ∀ e ∈ L.entries, e.name ∈ s.allbarriers.map (·.name) := by
    intro e he
    by_contra hnot
    have hnil := (h.other e.name fun b hb heq => hnot (heq ▸ mem_map_of_mem hb)).1
    have hof : e ∈ L.of e.name := mem_filter.mpr ⟨he, by simp⟩
    rw [hnil] at hof
    cases hof
  have hsame : s.allbarriers.flatMap (·.waiters) = Syncd.waiting
      ((s.allbarriers.map (·.name)).flatMap fun name => L.entries.filter fun e => e.name = name) := by
    rw [waiting_flatMap, flatMap_map]
    apply flatMap_congr
    intro b hb
    exact (h.barrier b hb).waiters
  rw [hsame]
  unfold Syncd.waiting
  exact (List.Perm.filter _ (perm_flatMap_filter (fun e : Entry => e.name) h.names hkeys)).map _

end

structure ObservedOk (o : Observed) : Prop where
  tables : TablesOk o.server
  accounts : Accounts o.server.allbarriers o.ledger
  nonzero : ∀ b ∈ o.server.allbarriers, b.count ≠ 0
  answers : o.server.answers.Perm o.ledger.answers
  ledger : LedgerOk o.ledger

theorem observedOk_start (tcpsock udpsock : Nat) : ObservedOk (.start tcpsock udpsock) where
  tables := tablesOk_start tcpsock udpsock
  accounts := {
    names := nodup_nil
    short := by
      intro b hb
      cases hb
    barrier := by
      intro b hb
      cases hb
    other := fun _ _ => ⟨rfl, rfl⟩ }
  nonzero := by
    intro b hb
    cases hb
  answers := List.Perm.refl _
  ledger := ledgerOk_start

/-- What can be said of an event. -/
def EventOk (o : Observed) : Event → Prop
  | .connect _ _ req => RequestOk o.server req
  | .datagram _ req => RequestOk o.server req
  | .disconnect sock => DisconnectOk o.server sock
  | .sighup => True

instance (o : Observed) : (e : Event) → Decidable (EventOk o e)
  | .connect _ _ req => inferInstanceAs (Decidable (RequestOk o.server req))
  | .datagram _ req => inferInstanceAs (Decidable (RequestOk o.server req))
  | .disconnect sock => inferInstanceAs (Decidable (DisconnectOk o.server sock))
  | .sighup => isTrue trivial

theorem LedgerOk.request {L : Ledger} (h : LedgerOk L) (req : BarrierReq) (sock ipaddr : Nat)
    (istcp : Bool) : LedgerOk (L.request (req.entry sock ipaddr istcp)) := by
  unfold BarrierReq.entry Ledger.request
  simp only
  by_cases hinit : req.request = BARRIER_INIT
  · rw [if_pos hinit]
    exact h.contribute (by intro hfalse; cases hfalse)
  · rw [if_neg hinit]
    by_cases hwait : req.request = BARRIER_WAIT
    · rw [if_pos hwait]
      exact h.contribute fun _ => if_neg hinit
    · rw [if_neg hwait]
      exact h

theorem RequestOk.opened {s : Server} {req : BarrierReq} (h : RequestOk s req)
    (opened : Nat → Bool) : RequestOk { s with opened := opened } req where
  named := h.named
  known := h.known
  range := by
    rw [findBarrier_opened]
    exact h.range
  room := fun hrec => by
    rw [findBarrier_opened]
    exact h.room hrec

theorem Observed.step_connect {o : Observed} {sock : Nat} (hclosed : o.server.opened sock = false)
    (ipaddr : Nat) (req : BarrierReq) {r : Int × Server}
    (hr : handleRequest { o.server with opened := update o.server.opened sock true } sock ipaddr req true = r) :
    o.step (.connect sock ipaddr req) = some {
      server := if r.1 ≠ 0 then r.2.close sock else r.2
      ledger := o.ledger.request (req.entry sock ipaddr true) } := by
  unfold Observed.step
  simp only
  rw [hclosed, hr]
  rfl

theorem ObservedOk.step {o : Observed} (h : ObservedOk o) {e : Event} (hok : EventOk o e) :
    ∃ o', o.step e = some o' ∧ ObservedOk o' := by
  cases e with
  | connect sock ipaddr req =>
    by_cases hopen : o.server.opened sock = true
    · exact ⟨o, if_pos hopen, h⟩
    · have hclosed : o.server.opened sock = false := by simpa using hopen
      have hnone := h.tables.of_closed hclosed
      have hreq : RequestOk o.server req := hok
      have htables₁ := h.tables.accept sock
      generalize hs₁ : ({ o.server with
        opened := update o.server.opened sock true } : Server) = s₁ at htables₁
      have hcan : CanWait s₁ sock true := by
        rw [← hs₁]
        exact ⟨hnone, update_self ..⟩
      have haccounts₁ : Accounts s₁.allbarriers o.ledger := by rw [← hs₁]; exact h.accounts
      have hnonzero₁ : ∀ b ∈ s₁.allbarriers, b.count ≠ 0 := by rw [← hs₁]; exact h.nonzero
      have hanswers₁ : s₁.answers.Perm o.ledger.answers := by rw [← hs₁]; exact h.answers
      have hreq₁ : RequestOk s₁ req := by rw [← hs₁]; exact hreq.opened _
      have htables := htables₁.request hcan ipaddr req
      obtain ⟨haccounts, hnonzero, hanswers⟩ := haccounts₁.request htables₁ hnonzero₁ hanswers₁
        hreq₁ sock ipaddr true
      have hacc := request_accepted o.server sock ipaddr req
      rw [hs₁] at hacc
      generalize hr : handleRequest s₁ sock ipaddr req true = r
      rw [hr] at hacc htables haccounts hnonzero hanswers
      refine ⟨_, Observed.step_connect hclosed ipaddr req (hs₁ ▸ hr), ?_⟩
      have hledger := h.ledger.request req sock ipaddr true
      by_cases hrc : r.1 ≠ 0
      · rw [if_pos hrc]
        have hnone' : r.2.tcpsockets sock = none := by
          cases hacc with
          | rejected _ htcp _ => rw [htcp]; exact hnone
          | crossed hrc' _ _ => exact absurd hrc' hrc
          | waits _ hrc' _ _ => exact absurd hrc' hrc
        exact ⟨htables.close hnone', haccounts, hnonzero, hanswers, hledger⟩
      · rw [if_neg hrc]
        exact ⟨htables, haccounts, hnonzero, hanswers, hledger⟩
  | datagram ipaddr req =>
    have hcan : CanWait o.server o.server.udpsock false := by simp [CanWait]
    obtain ⟨haccounts, hnonzero, hanswers⟩ := h.accounts.request h.tables h.nonzero h.answers hok
      o.server.udpsock ipaddr false
    exact ⟨_, rfl, h.tables.request hcan ipaddr req, haccounts, hnonzero, hanswers,
      h.ledger.request req _ ipaddr false⟩
  | disconnect sock =>
    cases hptr : o.server.tcpsockets sock with
    | none => exact ⟨o, by simp [Observed.step, hptr], h⟩
    | some p =>
      cases p with
      | sentinel => exact ⟨o, by simp [Observed.step, hptr], h⟩
      | barrier addr =>
        obtain ⟨s', hs', htables, haccounts, hnonzero, hanswers, hanswers'⟩ :=
          h.accounts.disconnect h.tables h.ledger h.nonzero hptr hok
        refine ⟨{ server := s', ledger := o.ledger.disconnect sock }, ?_, htables, haccounts,
          hnonzero, ?_, h.ledger.disconnect sock⟩
        · simp [Observed.step, hptr, hs']
        · show s'.answers.Perm (o.ledger.disconnect sock).answers
          rw [hanswers, hanswers']
          exact h.answers
  | sighup =>
    refine ⟨_, rfl, h.tables.clear.1, ?_, ?_, ?_, h.ledger.clear⟩
    · constructor
      · exact nodup_nil
      · intro b hb
        cases hb
      · intro b hb
        cases hb
      · exact fun _ _ => ⟨rfl, rfl⟩
    · intro b hb
      cases hb
    · show (clearBarriers o.server).answers.Perm o.ledger.clear.answers
      rw [clearBarriers_eq, releaseAll_eq]
      -- all that wait are told the same
      have hnew : (answersTo (o.server.allbarriers.flatMap (·.waiters)) SERVER_ERROR_SIGHUP).Perm
          (((waiting o.ledger.entries).map fun w => (w, SERVER_ERROR_SIGHUP)).map
            fun p : Waiter × Int => p.1.answer p.2) := by
        rw [List.map_map]
        exact h.accounts.waiting.map _
      unfold Ledger.answers Ledger.clear
      rw [map_append]
      refine (h.answers.append hnew).trans ?_
      unfold Ledger.answers
      rw [append_assoc, append_assoc]
      exact List.Perm.append_left _ perm_append_comm

/-- What is to hold between events. -/
structure Accounted (o : Observed) : Prop where
  names : (o.server.allbarriers.map (·.name)).Nodup
  /-- The count of a barrier is the sum of the counts of the initializers, less the number of the
      clients that wait. -/
  count : ∀ b ∈ o.server.allbarriers, b.count = balance (o.ledger.of b.name)
  /-- No contribution is forgotten. -/
  kept : ∀ name, o.ledger.of name ≠ [] → ∃ b ∈ o.server.allbarriers, b.name = name
  nonzero : ∀ b ∈ o.server.allbarriers, b.waiters ≠ [] → b.count ≠ 0
  /-- A client that has been recorded waits, or has been answered, or has gone away. -/
  recorded : o.ledger.recorded.Perm (o.server.allbarriers.flatMap (·.waiters) ++
    o.ledger.answered.map (·.1) ++ o.ledger.removed)
  answers : o.server.answers.Perm o.ledger.answers

theorem ObservedOk.accounted {o : Observed} (h : ObservedOk o) : Accounted o where
  names := h.accounts.names
  count b hb := (h.accounts.barrier b hb).count
  kept := by
    intro name hname
    by_contra hnot
    exact hname (h.accounts.other name fun b hb heq => hnot ⟨b, hb, heq⟩).1
  nonzero b hb _ := h.nonzero b hb
  recorded := h.ledger.recorded.trans ((h.accounts.waiting.symm.append_right _).append_right _)
  answers := h.answers

/-- An initializer that does not wait. -/
def initNowaitA (count : Int) : BarrierReq :=
  { requestA BARRIER_INIT count with flags := BARRIER_INIT_NOWAIT }

end Emulab.Syncd
