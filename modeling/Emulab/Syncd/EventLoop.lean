import Emulab.Syncd.Requests

/-! # The event loop of the synchronization server

  The server waits for its two listening sockets and for the sockets of the
  clients that wait over TCP, so that it notices when they go away. What the
  kernel says in one round of the loop is an input.
-/

namespace Emulab.Syncd

open MachineInt Machine Function

/-! ## Section 1: The loop -/

structure Loop where
  server : Server
  /-- The descriptors that `select` waits for. -/
  sfds : Finset Nat
  maxfd : Nat

def Loop.start (tcpsock udpsock : Nat) : Loop where
  server := .start tcpsock udpsock
  sfds := {tcpsock, udpsock}
  maxfd := if udpsock > tcpsock then udpsock else tcpsock

/-- Find the maximum TCP socket descriptor number. Descriptors that lead nowhere are taken out
    of the set. -/
def maxtcpsocket (s : Server) (fs : Finset Nat) (currentMax : Nat) : Nat × Finset Nat :=
  (List.range (currentMax + 1)).foldl
    (fun r lpc => if s.tcpsockets lpc ≠ none then (lpc, r.2) else (r.1, r.2.erase lpc)) (0, fs)

/-- Bring the set and its maximum up to date. -/
def Loop.update (l : Loop) : Loop :=
  let (maxfd, sfds) := maxtcpsocket l.server l.sfds l.maxfd
  { l with sfds := sfds, maxfd := maxfd }

structure Poll where
  /-- A SIGHUP has arrived since the last round. -/
  sighup : Bool
  interrupted : Bool
  ready : Finset Nat
  /-- What `accept` returns, and the address and the request of the client. -/
  accept : Option (Nat × Option (Nat × BarrierReq))
  datagram : Option (Nat × BarrierReq)
  /-- Whether a read of an open descriptor finds that the connection has been closed. -/
  closed : Nat → Bool

/-- Where the server calls `select`. -/
def Loop.atSelect (l : Loop) (sighup : Bool) : Loop :=
  if sighup then { l with server := clearBarriers l.server }.update else l

/-- A client connects. The second result says whether the round goes on. -/
def acceptClient (l : Loop) (accept : Option (Nat × Option (Nat × BarrierReq))) : Loop × Bool :=
  match accept with
  | none => (l, false)
  | some (_, none) => (l, false)
  | some (newsock, some (ipaddr, req)) =>
    -- the kernel does not use a descriptor that is open
    if l.server.opened newsock then
      (l, false)
    else
      let (error, server) := handleRequest { l.server with opened := update l.server.opened newsock true }
        newsock ipaddr req true
      if error ≠ 0 then
        ({ l with server := server.close newsock }, true)
      else if server.tcpsockets newsock ≠ none then
        -- the barrier was not crossed
        ({ l with
          server := server
          sfds := insert newsock l.sfds
          maxfd := if newsock > l.maxfd then newsock else l.maxfd }, true)
      else
        ({ l with server := server }.update, true)

def receive (l : Loop) (datagram : Option (Nat × BarrierReq)) : Loop × Bool :=
  match datagram with
  | none => (l, false)
  | some (ipaddr, req) =>
    ({ l with server := (handleRequest l.server l.server.udpsock ipaddr req false).2 }, true)

/-- A descriptor that is readable is read, and its client removed if the connection is closed. -/
def readClient (l : Loop) (closed : Nat → Bool) (j : Nat) : Option Loop :=
  if l.server.opened j ∧ closed j then do
    let server ← removeTcpclient (l.server.close j) j
    let l := { l with server := server, sfds := l.sfds.erase j }
    some (if j = l.maxfd then l.update else l)
  else
    some l

/-- The scan over the descriptors from `FD_SETSIZE - n` on, as long as there are any left;
    `none` if it does not end within the set. -/
def scanLoop (fds : Finset Nat) (closed : Nat → Bool) : (n i : Nat) → Loop → Option Loop
  | _, 0, l => some l
  | 0, _ + 1, _ => none
  | n + 1, i + 1, l =>
    if FD_SETSIZE - (n + 1) ∈ fds then do
      let l ← readClient l closed (FD_SETSIZE - (n + 1))
      scanLoop fds closed n i l
    else
      scanLoop fds closed n (i + 1) l

/-- What is done with the descriptors that `select` returns. -/
def handleReady (l : Loop) (p : Poll) (fds : Finset Nat) : Option Loop :=
  let i := fds.card
  let (l, fds, i, go) :=
    if l.server.tcpsock ∈ fds then
      let (l', go) := acceptClient l p.accept
      (l', fds.erase l.server.tcpsock, i - 1, go)
    else
      (l, fds, i, true)
  if !go then
    some l
  else
    let (l, fds, i, go) :=
      if l.server.udpsock ∈ fds then
        let (l', go) := receive l p.datagram
        (l', fds.erase l.server.udpsock, i - 1, go)
      else
        (l, fds, i, true)
    if !go then some l else scanLoop fds p.closed FD_SETSIZE i l

/-- A round of the loop. With a closed descriptor in the set `select` fails, which is fatal. -/
def Loop.step (l : Loop) (p : Poll) : Option Loop :=
  let l := l.atSelect p.sighup
  let set := l.sfds.filter fun fd => fd ≤ l.maxfd
  if ∃ fd ∈ set, l.server.opened fd = false then
    none
  else if p.interrupted then
    some l
  else
    handleReady l p (set ∩ p.ready)

/-! ## Section 2: The invariant -/

theorem maxtcpsocket_fold (s : Server) (fs : Finset Nat) (n : Nat) :
    let r := (List.range n).foldl (fun (r : Nat × Finset Nat) lpc =>
        if s.tcpsockets lpc ≠ none then (lpc, r.2) else (r.1, r.2.erase lpc)) (0, fs)
    (∀ fd, fd ∈ r.2 ↔ fd ∈ fs ∧ (n ≤ fd ∨ s.tcpsockets fd ≠ none)) ∧ r.1 ≤ n - 1 ∧
      ∀ fd < n, s.tcpsockets fd ≠ none → fd ≤ r.1 := by
  induction n with
  | zero => simp
  | succ n ih =>
    simp only at ih ⊢
    rw [List.range_succ, List.foldl_append]
    generalize (List.range n).foldl _ (0, fs) = r at ih ⊢
    obtain ⟨hmem, hle, hmax⟩ := ih
    simp only [List.foldl_cons, List.foldl_nil]
    by_cases hn : s.tcpsockets n ≠ none
    · rw [if_pos hn]
      refine ⟨?_, by simp, ?_⟩
      · intro fd
        rw [hmem]
        constructor
        · rintro ⟨hfs, hfd | hfd⟩
          · rcases Nat.eq_or_lt_of_le hfd with rfl | hlt
            · exact ⟨hfs, .inr hn⟩
            · exact ⟨hfs, .inl hlt⟩
          · exact ⟨hfs, .inr hfd⟩
        · rintro ⟨hfs, hfd | hfd⟩
          · exact ⟨hfs, .inl (by omega)⟩
          · exact ⟨hfs, .inr hfd⟩
      · intro fd hfd _
        exact Nat.lt_succ_iff.mp hfd
    · rw [if_neg hn]
      refine ⟨?_, by simp only; omega, ?_⟩
      · intro fd
        rw [Finset.mem_erase, hmem]
        constructor
        · rintro ⟨hne, hfs, hfd | hfd⟩
          · exact ⟨hfs, .inl (by omega)⟩
          · exact ⟨hfs, .inr hfd⟩
        · rintro ⟨hfs, hfd | hfd⟩
          · exact ⟨by omega, hfs, .inl (by omega)⟩
          · refine ⟨?_, hfs, .inr hfd⟩
            rintro rfl
            exact hn hfd
      · intro fd hfd hptr
        rcases Nat.eq_or_lt_of_le (Nat.lt_succ_iff.mp hfd) with rfl | hlt
        · exact absurd hptr hn
        · exact hmax fd hlt hptr

structure LoopOk (l : Loop) : Prop where
  tables : TablesOk l.server
  /-- A descriptor is open exactly if it leads somewhere. -/
  opened : ∀ fd, l.server.opened fd = true → l.server.tcpsockets fd ≠ none
  sfds : ∀ fd, fd ∈ l.sfds ↔ l.server.tcpsockets fd ≠ none
  max : ∀ fd ∈ l.sfds, fd ≤ l.maxfd
  small : l.maxfd < FD_SETSIZE
  waiters : ∀ b ∈ l.server.allbarriers, b.waiters.length ≤ MAXWAITERS

variable {l : Loop}

/-- The set is brought up to date after clients have been released. -/
theorem loopOk_update (htables : TablesOk l.server)
    (hopened : ∀ fd, l.server.opened fd = true → l.server.tcpsockets fd ≠ none)
    (hsfds : ∀ fd, l.server.tcpsockets fd ≠ none → fd ∈ l.sfds)
    (hmax : ∀ fd ∈ l.sfds, fd ≤ l.maxfd) (hsmall : l.maxfd < FD_SETSIZE)
    (hwaiters : ∀ b ∈ l.server.allbarriers, b.waiters.length ≤ MAXWAITERS) : LoopOk l.update := by
  obtain ⟨hmem, hle, hfd⟩ := maxtcpsocket_fold l.server l.sfds (l.maxfd + 1)
  have hsfds' : ∀ fd, fd ∈ l.update.sfds ↔ l.server.tcpsockets fd ≠ none := by
    intro fd
    have := hmem fd
    constructor
    · intro hin
      obtain ⟨hin', hlt | hptr⟩ := this.mp hin
      · have := hmax fd hin'
        omega
      · exact hptr
    · intro hptr
      exact this.mpr ⟨hsfds fd hptr, .inr hptr⟩
  exact {
    tables := htables
    opened := hopened
    sfds := hsfds'
    max := fun fd hin => by
      have hptr := (hsfds' fd).mp hin
      have := hmax fd (hsfds fd hptr)
      exact hfd fd (by omega) hptr
    small := by
      show (maxtcpsocket l.server l.sfds l.maxfd).1 < FD_SETSIZE
      unfold maxtcpsocket
      omega
    waiters := hwaiters }

theorem loopOk_start {tcpsock udpsock : Nat} (htcp : tcpsock < FD_SETSIZE)
    (hudp : udpsock < FD_SETSIZE) : LoopOk (.start tcpsock udpsock) := by
  constructor
  · exact tablesOk_start tcpsock udpsock
  · intro fd hfd
    have hfd : fd = tcpsock ∨ fd = udpsock := of_decide_eq_true hfd
    show (if fd = tcpsock ∨ fd = udpsock then some BarrierPtr.sentinel else none) ≠ none
    rw [if_pos hfd]
    simp
  · intro fd
    show fd ∈ ({tcpsock, udpsock} : Finset Nat) ↔
      (if fd = tcpsock ∨ fd = udpsock then some BarrierPtr.sentinel else none) ≠ none
    by_cases hfd : fd = tcpsock ∨ fd = udpsock
    · simp [hfd]
    · simp [hfd]
  · intro fd hfd
    have hfd : fd ∈ ({tcpsock, udpsock} : Finset Nat) := hfd
    simp only [Finset.mem_insert, Finset.mem_singleton] at hfd
    show fd ≤ if udpsock > tcpsock then udpsock else tcpsock
    split
    · omega
    · omega
  · show (if udpsock > tcpsock then udpsock else tcpsock) < FD_SETSIZE
    split
    · exact hudp
    · exact htcp
  · intro b hb
    cases hb

theorem LoopOk.open_of_mem (h : LoopOk l) {fd : Nat} (hfd : fd ∈ l.sfds) : l.server.opened fd = true := by
  by_contra hclosed
  exact (h.sfds fd).mp hfd (h.tables.of_closed (by simpa using hclosed))

/-- After a SIGHUP only the listening sockets are left. -/
theorem LoopOk.atSelect (h : LoopOk l) (sighup : Bool) : LoopOk (l.atSelect sighup) := by
  cases sighup with
  | false => exact h
  | true =>
    obtain ⟨htables, -⟩ := h.tables.clear
    have hsub : ∀ fd, (clearBarriers l.server).tcpsockets fd ≠ none →
        l.server.tcpsockets fd ≠ none ∧ (clearBarriers l.server).opened fd = l.server.opened fd := by
      intro fd hfd
      rw [clearBarriers_eq, releaseAll_eq] at hfd ⊢
      simp only at hfd ⊢
      split at hfd
      · exact absurd rfl hfd
      · rename_i hnot
        rw [if_neg hnot]
        exact ⟨hfd, rfl⟩
    refine loopOk_update (l := { l with server := clearBarriers l.server }) htables ?_ ?_ h.max h.small ?_
    · intro fd hopen
      rw [clearBarriers_eq, releaseAll_eq] at hopen ⊢
      simp only at hopen ⊢
      split at hopen
      · cases hopen
      · rename_i hnot
        rw [if_neg hnot]
        exact h.opened fd hopen
    · intro fd hfd
      exact (h.sfds fd).mpr (hsub fd hfd).1
    · intro b hb
      cases hb

/-! ## Section 3: Requests and descriptors -/

/-- The descriptors are as before, or have been closed. -/
def Shrinks (s s' : Server) : Prop :=
  ∀ fd, s'.tcpsockets fd = s.tcpsockets fd ∧ s'.opened fd = s.opened fd ∨
    s'.tcpsockets fd = none ∧ s'.opened fd = false

/-- What the request of a new connection does to the descriptors. -/
inductive Accepted (s : Server) (newsock : Nat) : Int × Server → Prop where
  | rejected (r : Int × Server) (hrc : r.1 ≠ 0) (htcp : r.2.tcpsockets = s.tcpsockets)
    (hopen : r.2.opened = update s.opened newsock true) : Accepted s newsock r
  | crossed (r : Int × Server) (hrc : r.1 = 0) (hnone : r.2.tcpsockets newsock = none)
    (hshrinks : Shrinks s r.2) : Accepted s newsock r
  | waits (r : Int × Server) (addr : Nat) (hrc : r.1 = 0)
    (htcp : r.2.tcpsockets = update s.tcpsockets newsock (some (.barrier addr)))
    (hopen : r.2.opened = update s.opened newsock true) : Accepted s newsock r

theorem request_accepted (s : Server) (newsock ipaddr : Nat) (req : BarrierReq) : Accepted s newsock (handleRequest
      { s with opened := update s.opened newsock true } newsock ipaddr req true) := by
  generalize hs₁ : ({ s with opened := update s.opened newsock true } : Server) = s₁
  obtain ⟨htcp, hopen, -, -⟩ := findBarrier_same s₁ req.name
  have htcp₁ : s₁.tcpsockets = s.tcpsockets := by rw [← hs₁]
  have hopen₁ : s₁.opened = update s.opened newsock true := by rw [← hs₁]
  rw [htcp₁] at htcp
  rw [hopen₁] at hopen
  have hcases := handleRequest_cases s₁ newsock ipaddr req true
  generalize handleRequest s₁ newsock ipaddr req true = r at hcases
  cases hcases with
  | rejected _ => exact .rejected _ one_ne_zero htcp hopen
  | nowait _ =>
    obtain ⟨htcp', hopen'⟩ := checkBarrier_sockets
      (releaseClient (findBarrier s₁ req.name).1 newsock ipaddr true 0)
      { (findBarrier s₁ req.name).2 with count := requestCount s₁ req }
    have hreltcp : (releaseClient (findBarrier s₁ req.name).1 newsock ipaddr true 0).tcpsockets =
        update s.tcpsockets newsock none := by
      rw [← htcp]
      rfl
    have hrelopen : (releaseClient (findBarrier s₁ req.name).1 newsock ipaddr true 0).opened =
        update (update s.opened newsock true) newsock false := by
      rw [← hopen]
      rfl
    rw [hreltcp] at htcp'
    rw [hrelopen, update_idem] at hopen'
    refine .crossed _ rfl ?_ fun fd => ?_
    · show (checkBarrier _ _).tcpsockets newsock = none
      rw [htcp', update_self, ite_self]
    · show (checkBarrier _ _).tcpsockets fd = _ ∧ (checkBarrier _ _).opened fd = _ ∨
        (checkBarrier _ _).tcpsockets fd = _ ∧ (checkBarrier _ _).opened fd = _
      rw [htcp', hopen']
      by_cases hfd : fd ∈ crossed { (findBarrier s₁ req.name).2 with count := requestCount s₁ req }
      · rw [if_pos hfd, if_pos hfd]
        exact .inr ⟨rfl, rfl⟩
      · rw [if_neg hfd, if_neg hfd]
        by_cases hnew : fd = newsock
        · rw [hnew, update_self, update_self]
          exact .inr ⟨rfl, rfl⟩
        · rw [update_of_ne hnew, update_of_ne hnew]
          exact .inl ⟨rfl, rfl⟩
  | recorded w _ hw =>
    have hsock : w.sock = newsock ∧ w.istcp = true := by rw [hw]; exact ⟨rfl, rfl⟩
    generalize hb : ({ (findBarrier s₁ req.name).2 with
      count := requestCount s₁ req
      waiters := (findBarrier s₁ req.name).2.waiters ++ [w]
      error := if w.error > (findBarrier s₁ req.name).2.error then w.error
        else (findBarrier s₁ req.name).2.error } : Barrier) = b
    have hrec : recordWaiter (findBarrier s₁ req.name).1
        { (findBarrier s₁ req.name).2 with count := requestCount s₁ req } w =
        checkBarrier { (findBarrier s₁ req.name).1 with
          tcpsockets := update (findBarrier s₁ req.name).1.tcpsockets newsock (some (.barrier b.addr)) } b := by
      unfold recordWaiter
      simp only [hsock.2, if_true, hsock.1, ← hb]
    have hin : newsock ∈ tcpSocks b.waiters := by
      rw [← hb]
      exact mem_tcpSocks.mpr ⟨w, by simp, hsock.2, hsock.1⟩
    obtain ⟨htcp', hopen'⟩ := checkBarrier_sockets { (findBarrier s₁ req.name).1 with
      tcpsockets := update (findBarrier s₁ req.name).1.tcpsockets newsock (some (.barrier b.addr)) } b
    rw [hrec]
    simp only [htcp, hopen] at htcp' hopen' ⊢
    by_cases hcount : b.count = 0
    · have hcross : crossed b = tcpSocks b.waiters := if_pos hcount
      rw [hcross] at htcp' hopen'
      refine .crossed _ rfl ?_ fun fd => ?_
      · show (checkBarrier _ _).tcpsockets newsock = none
        rw [htcp', if_pos hin]
      · show (checkBarrier _ _).tcpsockets fd = _ ∧ (checkBarrier _ _).opened fd = _ ∨
          (checkBarrier _ _).tcpsockets fd = _ ∧ (checkBarrier _ _).opened fd = _
        rw [htcp', hopen']
        by_cases hfd : fd ∈ tcpSocks b.waiters
        · rw [if_pos hfd, if_pos hfd]
          exact .inr ⟨rfl, rfl⟩
        · have hnew : fd ≠ newsock := fun heq => hfd (heq ▸ hin)
          rw [if_neg hfd, if_neg hfd, update_of_ne hnew, update_of_ne hnew]
          exact .inl ⟨rfl, rfl⟩
    · have hcross : crossed b = [] := if_neg hcount
      rw [hcross] at htcp' hopen'
      refine .waits _ b.addr rfl ?_ ?_
      · funext fd
        show (checkBarrier _ _).tcpsockets fd = _
        rw [htcp', if_neg List.not_mem_nil]
      · funext fd
        show (checkBarrier _ _).opened fd = _
        rw [hopen', if_neg List.not_mem_nil]

/-- A datagram that does not cross a barrier with clients that wait over TCP leaves the
    descriptors as they are. -/
theorem datagram_sockets {s : Server} {req : BarrierReq}
    (hkeep : requestCount s req = 0 → tcpSocks (findBarrier s req.name).2.waiters = []) (sock ipaddr : Nat) :
    (handleRequest s sock ipaddr req false).2.tcpsockets = s.tcpsockets ∧
      (handleRequest s sock ipaddr req false).2.opened = s.opened := by
  obtain ⟨htcp, hopen, -, -⟩ := findBarrier_same s req.name
  have hcheck : ∀ (s' : Server) (b : Barrier), s'.tcpsockets = s.tcpsockets →
      s'.opened = s.opened → crossed b = [] →
      (checkBarrier s' b).tcpsockets = s.tcpsockets ∧ (checkBarrier s' b).opened = s.opened := by
    intro s' b hs' hs'' hnil
    obtain ⟨htcp', hopen'⟩ := checkBarrier_sockets s' b
    rw [hnil] at htcp' hopen'
    constructor
    · funext fd
      rw [htcp', if_neg List.not_mem_nil, hs']
    · funext fd
      rw [hopen', if_neg List.not_mem_nil, hs'']
  have hcases := handleRequest_cases s sock ipaddr req false
  generalize handleRequest s sock ipaddr req false = r at hcases
  cases hcases with
  | rejected _ => exact ⟨htcp, hopen⟩
  | nowait _ =>
    apply hcheck
    · exact htcp
    · exact hopen
    · unfold crossed
      split
      · rename_i hzero
        exact hkeep hzero
      · rfl
  | recorded w _ hw =>
    have hfalse : w.istcp = false := by rw [hw]
    unfold recordWaiter
    simp only [hfalse, Bool.false_eq_true, if_false]
    apply hcheck
    · exact htcp
    · exact hopen
    · have hnil : requestCount s req = 0 → tcpSocks ((findBarrier s req.name).2.waiters ++ [w]) = [] := by
        intro hzero
        rw [tcpSocks_append, hkeep hzero]
        simp [tcpSocks, hfalse]
      by_cases hzero : requestCount s req = 0
      · exact (if_pos hzero).trans (hnil hzero)
      · exact if_neg hzero

/-! ## Section 4: A round of the loop -/

/-- Some clients have been released, and the set is brought up to date. -/
theorem LoopOk.shrink (h : LoopOk l) {s' : Server} (htables : TablesOk s') (hshrinks : Shrinks l.server s')
    (hwaiters : ∀ b ∈ s'.allbarriers, b.waiters.length ≤ MAXWAITERS) :
    LoopOk (Loop.update { l with server := s' }) := by
  apply loopOk_update
  · exact htables
  · intro fd hopen
    rcases hshrinks fd with ⟨htcp, hopen'⟩ | ⟨-, hclosed⟩
    · have hopen : s'.opened fd = true := hopen
      show s'.tcpsockets fd ≠ none
      rw [htcp]
      exact h.opened fd (hopen' ▸ hopen)
    · rw [hclosed] at hopen
      cases hopen
  · intro fd hptr
    rcases hshrinks fd with ⟨htcp, -⟩ | ⟨hnone, -⟩
    · have hptr : s'.tcpsockets fd ≠ none := hptr
      rw [htcp] at hptr
      exact (h.sfds fd).mpr hptr
    · exact absurd hnone hptr
  · exact h.max
  · exact h.small
  · exact hwaiters

theorem LoopOk.same (h : LoopOk l) {s' : Server} (htables : TablesOk s')
    (htcp : s'.tcpsockets = l.server.tcpsockets) (hopen : s'.opened = l.server.opened)
    (hwaiters : ∀ b ∈ s'.allbarriers, b.waiters.length ≤ MAXWAITERS) : LoopOk { l with server := s' } where
  tables := htables
  opened := by
    show ∀ fd, s'.opened fd = true → s'.tcpsockets fd ≠ none
    rw [htcp, hopen]
    exact h.opened
  sfds := by
    show ∀ fd, fd ∈ l.sfds ↔ s'.tcpsockets fd ≠ none
    rw [htcp]
    exact h.sfds
  max := h.max
  small := h.small
  waiters := hwaiters

/-- What can be said of a connection and of its request. -/
def ConnectionOk (s : Server) (accept : Option (Nat × Option (Nat × BarrierReq))) : Prop :=
  ∀ newsock client, accept = some (newsock, client) → newsock < FD_SETSIZE ∧
    ∀ ipaddr req, client = some (ipaddr, req) → HasRoom s req

theorem LoopOk.acceptClient (h : LoopOk l)
    {accept : Option (Nat × Option (Nat × BarrierReq))} (hok : ConnectionOk l.server accept) :
    LoopOk (acceptClient l accept).1 ∧ (Syncd.acceptClient l accept).1.server.tcpsock = l.server.tcpsock ∧
      (Syncd.acceptClient l accept).1.server.udpsock = l.server.udpsock := by
  unfold Syncd.acceptClient
  split
  · exact ⟨h, rfl, rfl⟩
  · exact ⟨h, rfl, rfl⟩
  · rename_i newsock ipaddr req
    obtain ⟨hsmall, hroom⟩ := hok newsock _ rfl
    have hroom : HasRoom { l.server with opened := update l.server.opened newsock true }
        req := fun hrec => by
      rw [findBarrier_opened]
      exact hroom ipaddr req rfl hrec
    by_cases hopen : l.server.opened newsock = true
    · rw [if_pos hopen]
      exact ⟨h, rfl, rfl⟩
    · rw [if_neg hopen]
      have hclosed : l.server.opened newsock = false := by simpa using hopen
      have hnone := h.tables.of_closed hclosed
      have hacc := request_accepted l.server newsock ipaddr req
      have hcan : CanWait { l.server with opened := update l.server.opened newsock true }
          newsock true := ⟨hnone, update_self ..⟩
      have htables := (h.tables.accept newsock).request hcan ipaddr req
      have hwaiters := request_waiters (h.tables.accept newsock) h.waiters hroom newsock ipaddr true
      obtain ⟨hlis, hlis'⟩ := request_listening
        { l.server with opened := update l.server.opened newsock true } newsock ipaddr
        req true
      generalize handleRequest { l.server with opened := update l.server.opened newsock true } newsock ipaddr
        req true = r at hacc htables hwaiters hlis hlis' ⊢
      obtain ⟨error, server⟩ := r
      simp only at htables hwaiters hlis hlis' ⊢
      cases hacc with
      | rejected hrc htcp hopen' =>
        simp only at hrc htcp hopen'
        rw [if_pos hrc]
        refine ⟨h.same (htables.close ?_) htcp ?_ hwaiters, hlis, hlis'⟩
        · rw [htcp]
          exact hnone
        · show update server.opened newsock false = l.server.opened
          rw [hopen', update_idem, ← hclosed, update_eq_self]
      | crossed hrc hnone' hshrinks =>
        simp only at hrc hnone' hshrinks
        rw [if_neg (not_not.mpr hrc), if_neg (not_not.mpr hnone')]
        exact ⟨h.shrink htables hshrinks hwaiters, hlis, hlis'⟩
      | waits addr hrc htcp hopen' =>
        simp only at hrc htcp hopen'
        have hself : server.tcpsockets newsock ≠ none := by
          rw [htcp, update_self]
          simp
        rw [if_neg (not_not.mpr hrc), if_pos hself]
        refine ⟨?_, hlis, hlis'⟩
        constructor
        · exact htables
        · intro fd hfd
          have hfd : server.opened fd = true := hfd
          show server.tcpsockets fd ≠ none
          by_cases hnew : fd = newsock
          · rw [hnew]
            exact hself
          · rw [hopen', update_of_ne hnew] at hfd
            rw [htcp, update_of_ne hnew]
            exact h.opened fd hfd
        · intro fd
          show fd ∈ insert newsock l.sfds ↔ server.tcpsockets fd ≠ none
          by_cases hnew : fd = newsock
          · rw [hnew]
            exact ⟨fun _ => hself, fun _ => Finset.mem_insert_self _ _⟩
          · rw [htcp, update_of_ne hnew, Finset.mem_insert, h.sfds]
            exact ⟨fun hfd => hfd.resolve_left hnew, .inr⟩
        · intro fd hfd
          show fd ≤ if newsock > l.maxfd then newsock else l.maxfd
          have hle : fd = newsock ∨ fd ≤ l.maxfd := by
            rcases Finset.mem_insert.mp hfd with hfd | hfd
            · exact .inl hfd
            · exact .inr (h.max fd hfd)
          split
          · omega
          · omega
        · show (if newsock > l.maxfd then newsock else l.maxfd) < FD_SETSIZE
          split
          · exact hsmall
          · exact h.small
        · exact hwaiters

/-- The request does not cross a barrier with clients that wait over TCP. -/
def KeepsTcp (s : Server) (req : BarrierReq) : Prop :=
  requestCount s req = 0 → tcpSocks (findBarrier s req.name).2.waiters = []

def DatagramOk (s : Server) (datagram : Option (Nat × BarrierReq)) : Prop :=
  ∀ ipaddr req, datagram = some (ipaddr, req) → KeepsTcp s req ∧ HasRoom s req

theorem LoopOk.receive (h : LoopOk l) {datagram : Option (Nat × BarrierReq)} (hok : DatagramOk l.server datagram) :
    LoopOk (receive l datagram).1 ∧ (Syncd.receive l datagram).1.server.tcpsock = l.server.tcpsock ∧
      (Syncd.receive l datagram).1.server.udpsock = l.server.udpsock := by
  unfold Syncd.receive
  split
  · exact ⟨h, rfl, rfl⟩
  · rename_i ipaddr req
    obtain ⟨hkeep, hroom⟩ := hok ipaddr req rfl
    obtain ⟨htcp, hopen⟩ := datagram_sockets hkeep l.server.udpsock ipaddr
    refine ⟨h.same ?_ htcp hopen ?_, request_listening ..⟩
    · have hcan : CanWait l.server l.server.udpsock false := by simp [CanWait]
      exact h.tables.request hcan ipaddr req
    · exact request_waiters h.tables h.waiters hroom _ _ _

/-- A client goes away: its socket leads nowhere any more. -/
theorem removeTcpclient_sockets {s s' : Server} {sock : Nat} (hs' : removeTcpclient s sock = some s') :
    s'.tcpsockets = update s.tcpsockets sock none ∧ s'.opened = s.opened ∧
      s'.tcpsock = s.tcpsock ∧ s'.udpsock = s.udpsock ∧
      ∀ b' ∈ s'.allbarriers, ∃ b ∈ s.allbarriers, b'.waiters.length ≤ b.waiters.length := by
  unfold removeTcpclient at hs'
  split at hs'
  · split at hs'
    · rename_i addr _ _ b hfind
      have hb := List.mem_of_find?_eq_some hfind
      have hpack : (packWaiters sock b.waiters).length ≤ b.waiters.length := by
        unfold packWaiters
        exact (List.length_take_le' _ _).trans (List.length_eraseP_le ..)
      simp only [Option.some.injEq] at hs'
      rw [← hs']
      split
      · exact ⟨rfl, rfl, rfl, rfl, fun b' hb' => ⟨b', List.mem_of_mem_eraseP hb', le_refl _⟩⟩
      · refine ⟨rfl, rfl, rfl, rfl, fun b' hb' => ?_⟩
        rcases mem_putBarrier.mp hb' with ⟨hb', -⟩ | ⟨rfl, -⟩
        · exact ⟨b', hb', le_refl _⟩
        · exact ⟨b, hb, hpack⟩
    · cases hs'
  · cases hs'

/-- A descriptor that is not a listening socket is read. -/
theorem LoopOk.readClient (h : LoopOk l) (closed : Nat → Bool) {j : Nat}
    (hj : j ≠ l.server.tcpsock ∧ j ≠ l.server.udpsock) :
    ∃ l', readClient l closed j = some l' ∧ LoopOk l' ∧
      l'.server.tcpsock = l.server.tcpsock ∧ l'.server.udpsock = l.server.udpsock := by
  unfold Syncd.readClient
  by_cases hread : l.server.opened j = true ∧ closed j = true
  · rw [if_pos hread]
    obtain ⟨addr, hptr⟩ : ∃ addr, l.server.tcpsockets j = some (.barrier addr) := by
      cases hptr : l.server.tcpsockets j with
      | none => exact absurd hptr (h.opened j hread.1)
      | some p =>
        cases p with
        | sentinel =>
          rcases (h.tables.listening j).mp hptr with heq | heq
          · exact absurd heq hj.1
          · exact absurd heq hj.2
        | barrier addr => exact ⟨addr, rfl⟩
    obtain ⟨s', hs', htables⟩ := h.tables.disconnect hptr
    obtain ⟨htcp, hopen, hlis, hlis', hlen⟩ := removeTcpclient_sockets hs'
    have htcp : s'.tcpsockets = update l.server.tcpsockets j none := htcp
    have hopen : s'.opened = update l.server.opened j false := hopen
    have hwaiters : ∀ b ∈ s'.allbarriers, b.waiters.length ≤ MAXWAITERS := by
      intro b' hb'
      obtain ⟨b, hb, hle⟩ := hlen b' hb'
      exact hle.trans (h.waiters b hb)
    have hopened : ∀ fd, s'.opened fd = true → s'.tcpsockets fd ≠ none := by
      intro fd hfd
      by_cases hfdj : fd = j
      · rw [hopen, hfdj, update_self] at hfd
        cases hfd
      · rw [hopen, update_of_ne hfdj] at hfd
        rw [htcp, update_of_ne hfdj]
        exact h.opened fd hfd
    have hsfds : ∀ fd, fd ∈ l.sfds.erase j ↔ s'.tcpsockets fd ≠ none := by
      intro fd
      rw [Finset.mem_erase, h.sfds]
      by_cases hfdj : fd = j
      · rw [htcp, hfdj, update_self]
        simp
      · rw [htcp, update_of_ne hfdj]
        simp [hfdj]
    have hmax : ∀ fd ∈ l.sfds.erase j, fd ≤ l.maxfd := fun fd hfd =>
      h.max fd (Finset.mem_of_mem_erase hfd)
    refine ⟨if j = l.maxfd then Loop.update { l with server := s', sfds := l.sfds.erase j }
      else { l with server := s', sfds := l.sfds.erase j }, ?_, ?_, ?_⟩
    · rw [hs']
      rfl
    · split
      · exact loopOk_update htables hopened (fun fd => (hsfds fd).mpr) hmax h.small hwaiters
      · exact ⟨htables, hopened, hsfds, hmax, h.small, hwaiters⟩
    · split
      · exact ⟨hlis, hlis'⟩
      · exact ⟨hlis, hlis'⟩
  · rw [if_neg hread]
    exact ⟨l, rfl, h, rfl, rfl⟩

/-- The scan ends within the set: as many descriptors are found as are left. -/
theorem LoopOk.scanLoop {fds : Finset Nat} (closed : Nat → Bool) (n i : Nat) (h : LoopOk l) (hn : n ≤ FD_SETSIZE)
    (hi : (fds.filter fun fd => FD_SETSIZE - n ≤ fd ∧ fd < FD_SETSIZE).card = i)
    (hlis : l.server.tcpsock ∉ fds ∧ l.server.udpsock ∉ fds) :
    ∃ l', scanLoop fds closed n i l = some l' ∧ LoopOk l' := by
  induction n generalizing i l with
  | zero =>
    have hempty : (fds.filter fun fd => FD_SETSIZE - 0 ≤ fd ∧ fd < FD_SETSIZE) = ∅ := by
      rw [Finset.filter_eq_empty_iff]
      rintro fd - ⟨hle, hlt⟩
      omega
    rw [hempty, Finset.card_empty] at hi
    subst hi
    exact ⟨l, rfl, h⟩
  | succ n ih =>
    cases i with
    | zero => exact ⟨l, rfl, h⟩
    | succ i =>
      generalize hj : FD_SETSIZE - (n + 1) = j at hi
      -- the descriptors from `j` on are `j` and those behind it
      have hstep : FD_SETSIZE - n = j + 1 := by omega
      unfold Syncd.scanLoop
      rw [hj]
      by_cases hmem : j ∈ fds
      · have hcard : (fds.filter fun fd => FD_SETSIZE - n ≤ fd ∧ fd < FD_SETSIZE).card = i := by
          have hins : (fds.filter fun fd => j ≤ fd ∧ fd < FD_SETSIZE) =
              insert j (fds.filter fun fd => FD_SETSIZE - n ≤ fd ∧ fd < FD_SETSIZE) := by
            ext fd
            simp only [Finset.mem_filter, Finset.mem_insert]
            constructor
            · rintro ⟨hfd, hle, hlt⟩
              rcases Nat.eq_or_lt_of_le hle with heq | hlt'
              · exact .inl heq.symm
              · exact .inr ⟨hfd, by omega, hlt⟩
            · rintro (rfl | ⟨hfd, hle, hlt⟩)
              · exact ⟨hmem, le_refl _, by omega⟩
              · exact ⟨hfd, by omega, hlt⟩
          rw [hins, Finset.card_insert_of_notMem] at hi
          · omega
          · simp only [Finset.mem_filter, not_and]
            intro _ hle
            omega
        have hne : j ≠ l.server.tcpsock ∧ j ≠ l.server.udpsock :=
          ⟨fun heq => hlis.1 (heq ▸ hmem), fun heq => hlis.2 (heq ▸ hmem)⟩
        obtain ⟨l', hl', hok, htcp, hudp⟩ := h.readClient closed hne
        rw [if_pos hmem, hl']
        rw [← htcp, ← hudp] at hlis
        exact ih i hok (by omega) hcard hlis
      · rw [if_neg hmem]
        refine ih (i + 1) h (by omega) ?_ hlis
        rw [← hi]
        congr 1
        ext fd
        simp only [Finset.mem_filter]
        constructor
        · rintro ⟨hfd, hle, hlt⟩
          exact ⟨hfd, by omega, hlt⟩
        · rintro ⟨hfd, hle, hlt⟩
          have : fd ≠ j := fun heq => hmem (heq ▸ hfd)
          exact ⟨hfd, by omega, hlt⟩

/-! ## Section 5: Runs -/

/-- The descriptors that are both waited for and readable. -/
def Loop.readable (l : Loop) (p : Poll) : Finset Nat :=
  (l.sfds.filter fun fd => fd ≤ l.maxfd) ∩ p.ready

/-- What can be said of a round: of the connection, and of the datagram that is received after it. -/
def RoundOk (l : Loop) (p : Poll) : Prop :=
  let l := l.atSelect p.sighup
  (l.server.tcpsock ∈ l.readable p → ConnectionOk l.server p.accept) ∧ DatagramOk
      (if l.server.tcpsock ∈ l.readable p then (acceptClient l p.accept).1 else l).server
      p.datagram

/-- What remains after the listening sockets have been looked at is scanned. -/
theorem LoopOk.handleReady (h : LoopOk l) {p : Poll} {fds : Finset Nat} (hfds : ∀ fd ∈ fds, fd < FD_SETSIZE)
    (hconn : l.server.tcpsock ∈ fds → ConnectionOk l.server p.accept)
    (hdata : DatagramOk (if l.server.tcpsock ∈ fds then (Syncd.acceptClient l p.accept).1 else l).server
      p.datagram) : ∃ l', handleReady l p fds = some l' ∧ LoopOk l' := by
  -- first the connection
  generalize hfirst : (if l.server.tcpsock ∈ fds then
      ((Syncd.acceptClient l p.accept).1, fds.erase l.server.tcpsock, fds.card - 1,
        (Syncd.acceptClient l p.accept).2)
    else (l, fds, fds.card, true)) = first
  have hspec : LoopOk first.1 ∧ first.1.server.tcpsock = l.server.tcpsock ∧
      first.1.server.udpsock = l.server.udpsock ∧ first.2.1 ⊆ fds ∧
      l.server.tcpsock ∉ first.2.1 ∧ first.2.2.1 = first.2.1.card ∧
      DatagramOk first.1.server p.datagram := by
    rw [← hfirst]
    by_cases hmem : l.server.tcpsock ∈ fds
    · rw [if_pos hmem] at hdata
      rw [if_pos hmem]
      obtain ⟨hok, htcp, hudp⟩ := h.acceptClient (hconn hmem)
      exact ⟨hok, htcp, hudp, Finset.erase_subset _ _, Finset.notMem_erase _ _,
        (Finset.card_erase_of_mem hmem).symm, hdata⟩
    · rw [if_neg hmem] at hdata
      rw [if_neg hmem]
      exact ⟨h, rfl, rfl, subset_rfl, hmem, rfl, hdata⟩
  unfold Syncd.handleReady
  simp only
  rw [hfirst]
  obtain ⟨l₁, fds₁, i₁, go₁⟩ := first
  obtain ⟨h₁, htcp₁, hudp₁, hsub₁, hnot₁, hi₁, hdata₁⟩ := hspec
  simp only at h₁ htcp₁ hudp₁ hsub₁ hnot₁ hi₁ hdata₁ ⊢
  cases go₁ with
  | false => exact ⟨l₁, rfl, h₁⟩
  | true =>
    -- then the datagram
    generalize hsecond : (if l₁.server.udpsock ∈ fds₁ then
        ((Syncd.receive l₁ p.datagram).1, fds₁.erase l₁.server.udpsock, i₁ - 1, (Syncd.receive l₁ p.datagram).2)
      else (l₁, fds₁, i₁, true)) = second
    have hspec : LoopOk second.1 ∧ second.1.server.tcpsock = l₁.server.tcpsock ∧
        second.1.server.udpsock = l₁.server.udpsock ∧ second.2.1 ⊆ fds₁ ∧
        l₁.server.udpsock ∉ second.2.1 ∧ second.2.2.1 = second.2.1.card := by
      rw [← hsecond]
      by_cases hmem : l₁.server.udpsock ∈ fds₁
      · rw [if_pos hmem]
        obtain ⟨hok, htcp, hudp⟩ := h₁.receive hdata₁
        refine ⟨hok, htcp, hudp, Finset.erase_subset _ _, Finset.notMem_erase _ _, ?_⟩
        rw [hi₁, ← Finset.card_erase_of_mem hmem]
      · rw [if_neg hmem]
        exact ⟨h₁, rfl, rfl, subset_rfl, hmem, hi₁⟩
    simp only [Bool.not_true, Bool.false_eq_true, if_false]
    obtain ⟨l₂, fds₂, i₂, go₂⟩ := second
    obtain ⟨h₂, htcp₂, hudp₂, hsub₂, hnot₂, hi₂⟩ := hspec
    simp only at h₂ htcp₂ hudp₂ hsub₂ hnot₂ hi₂ ⊢
    cases go₂ with
    | false => exact ⟨l₂, rfl, h₂⟩
    | true =>
      refine h₂.scanLoop p.closed FD_SETSIZE i₂ (le_refl _) ?_ ⟨?_, ?_⟩
      · rw [hi₂, Finset.filter_true_of_mem]
        intro fd hfd
        exact ⟨by omega, hfds fd (hsub₁ (hsub₂ hfd))⟩
      · rw [htcp₂, htcp₁]
        exact fun hmem => hnot₁ (hsub₂ hmem)
      · rw [hudp₂]
        exact hnot₂

theorem LoopOk.step (h : LoopOk l) {p : Poll} (hok : RoundOk l p) : ∃ l', l.step p = some l' ∧ LoopOk l' := by
  have h₁ := h.atSelect p.sighup
  have hopen : ¬∃ fd ∈ (l.atSelect p.sighup).sfds.filter fun fd => fd ≤ (l.atSelect p.sighup).maxfd,
      (l.atSelect p.sighup).server.opened fd = false := by
    rintro ⟨fd, hfd, hclosed⟩
    rw [h₁.open_of_mem (Finset.mem_filter.mp hfd).1] at hclosed
    cases hclosed
  unfold Loop.step
  simp only
  rw [if_neg hopen]
  split
  · exact ⟨_, rfl, h₁⟩
  · refine h₁.handleReady ?_ hok.1 hok.2
    intro fd hfd
    have hle := (Finset.mem_filter.mp (Finset.mem_inter.mp hfd).1).2
    have := h₁.small
    omega

/-- What is to hold where the server calls `select`. -/
structure Consistent (l : Loop) : Prop where
  opened : ∀ fd ∈ l.sfds, l.server.opened fd = true
  /-- It is a listening socket, or a client that is recorded once in the barrier it leads to. -/
  recorded : ∀ fd ∈ l.sfds, fd = l.server.tcpsock ∨ fd = l.server.udpsock ∨
    ∃ b ∈ l.server.allbarriers, l.server.tcpsockets fd = some (.barrier b.addr) ∧ (tcpSocks b.waiters).count fd = 1
  /-- Every pointer leads to one barrier that has not been freed. -/
  live : ∀ fd addr, l.server.tcpsockets fd = some (.barrier addr) → ∃! b, b ∈ l.server.allbarriers ∧ b.addr = addr
  waiters : ∀ b ∈ l.server.allbarriers, b.waiters.length ≤ MAXWAITERS

theorem LoopOk.consistent (h : LoopOk l) : Consistent l where
  opened _ hfd := h.open_of_mem hfd
  recorded := by
    intro fd hfd
    cases hptr : l.server.tcpsockets fd with
    | none => exact absurd hptr ((h.sfds fd).mp hfd)
    | some p =>
      cases p with
      | sentinel =>
        rcases (h.tables.listening fd).mp hptr with heq | heq
        · exact .inl heq
        · exact .inr (.inl heq)
      | barrier addr =>
        obtain ⟨-, b, hb, rfl, hmem⟩ := h.tables.ptr fd addr hptr
        exact .inr (.inr ⟨b, hb, rfl, List.count_eq_one_of_mem (h.tables.once b hb) hmem⟩)
  live := by
    intro fd addr hptr
    obtain ⟨-, b, hb, rfl, -⟩ := h.tables.ptr fd addr hptr
    exact ⟨b, ⟨hb, rfl⟩, fun b' hb' => h.tables.unique hb'.1 hb hb'.2⟩
  waiters := h.waiters

/-- A request for the barrier `a`. -/
def requestA (request count : Int) : BarrierReq where
  name := 97 :: List.replicate 63 0
  request := request
  flags := 0
  count := count
  error := 0
  size := rfl

/-- A round in which nothing happens. -/
def Poll.quiet : Poll where
  sighup := false
  interrupted := false
  ready := ∅
  accept := none
  datagram := none
  closed _ := false

/-- A client connects and waits. -/
def waitsOverTcp (newsock : Nat) : Poll :=
  { Poll.quiet with
    ready := {3}
    accept := some (newsock, some (0, requestA BARRIER_WAIT 0)) }

def goesAway (sock : Nat) : Poll := { Poll.quiet with ready := {sock}, closed := fun fd => fd = sock }

def initializes (count : Int) : Poll :=
  { Poll.quiet with ready := {4}, datagram := some (0, requestA BARRIER_INIT count) }

end Emulab.Syncd
