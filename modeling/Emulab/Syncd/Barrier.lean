import Emulab.Lib.Machine
import Emulab.Lib.MachineInt

/-! # Barriers of the synchronization server

  A barrier has a count and a list of clients that wait for it. The
  initializer adds to the count, and each client that waits takes one off.
  Where the count is zero after a request the barrier is crossed: all clients
  that wait are answered, and the barrier is freed. A client that waits over
  TCP can go away; its socket leads to the barrier.
-/

namespace Emulab.Syncd

open MachineInt

/-! ## Section 1: The tables -/

abbrev MAXWAITERS : Nat := 4096

/-- The size of a set of descriptors, and of `tcpsockets`. -/
abbrev FD_SETSIZE : Nat := 1024

abbrev BARRIER_INIT : Int := 1

abbrev BARRIER_WAIT : Int := 2

abbrev BARRIER_INIT_NOWAIT : BitVec 16 := 1

abbrev SERVER_ERROR_SIGHUP : Int := 240

/-- The bytes of a string in front of its end. -/
def cstr (s : List Byte) : List Byte := s.takeWhile (· ≠ 0)

/-- `barrier_req_t`. -/
structure BarrierReq where
  name : List Byte
  request : Int
  flags : BitVec 16
  count : Int
  error : Int
  size : name.length = 64

/-- A client that waits. -/
structure Waiter where
  count : Int
  sock : Nat
  istcp : Bool
  error : Int
  ipaddr : Nat
deriving DecidableEq

/-- `struct barrier_ctrl`. The index is the length of the list of waiters. -/
structure Barrier where
  addr : Nat
  name : List Byte
  count : Int
  error : Int
  waiters : List Waiter
deriving DecidableEq

/-- A pointer in `tcpsockets` that is not `NULL`. -/
inductive BarrierPtr where
  | sentinel
  | barrier (addr : Nat)
deriving DecidableEq

/-- What a client is told. -/
structure Answer where
  sock : Nat
  ipaddr : Nat
  istcp : Bool
  result : Int
deriving DecidableEq

structure Server where
  tcpsock : Nat
  udpsock : Nat
  allbarriers : List Barrier
  /-- Where the next structure is allocated. -/
  nextAddr : Nat
  tcpsockets : Nat → Option BarrierPtr
  opened : Nat → Bool
  answers : List Answer

/-- A server with its two sockets. -/
def Server.start (tcpsock udpsock : Nat) : Server where
  tcpsock := tcpsock
  udpsock := udpsock
  allbarriers := []
  nextAddr := 0
  tcpsockets fd := if fd = tcpsock ∨ fd = udpsock then some .sentinel else none
  opened fd := fd = tcpsock ∨ fd = udpsock
  answers := []

/-! ## Section 2: Requests -/

def Server.close (s : Server) (sock : Nat) : Server :=
  { s with opened := Function.update s.opened sock false }

/-- Release a single client. That it cannot be reached is only logged. -/
def releaseClient (s : Server) (sock ipaddr : Nat) (istcp : Bool) (result : Int) : Server :=
  let s := { s with
    answers := s.answers ++ [{ sock := sock, ipaddr := ipaddr, istcp := istcp, result := result }] }
  if istcp then
    { s with tcpsockets := Function.update s.tcpsockets sock none }.close sock
  else
    s

def releaseAll (s : Server) (waiters : List Waiter) (result : Int) : Server :=
  waiters.foldl (fun s w => releaseClient s w.sock w.ipaddr w.istcp result) s

def removeBarrier (s : Server) (addr : Nat) : Server :=
  { s with allbarriers := s.allbarriers.eraseP fun b => b.addr = addr }

/-- Store a barrier where it was. -/
def putBarrier (s : Server) (barrier : Barrier) : Server :=
  { s with
    allbarriers := s.allbarriers.map fun b => if b.addr = barrier.addr then barrier else b }

/-- Find the barrier with a name, or create it. Only the name of a new one is cut off. -/
def findBarrier (s : Server) (name : List Byte) : Server × Barrier :=
  match s.allbarriers.find? fun b => b.name = cstr name with
  | some barrier => (s, barrier)
  | none =>
    let barrier : Barrier :=
      { addr := s.nextAddr, name := cstr (name.take 63), count := 0, error := 0, waiters := [] }
    ({ s with allbarriers := barrier :: s.allbarriers, nextAddr := s.nextAddr + 1 }, barrier)

/-- Wake everyone up if the count is zero. -/
def checkBarrier (s : Server) (barrier : Barrier) : Server :=
  if barrier.count ≠ 0 then
    putBarrier s barrier
  else
    removeBarrier (releaseAll s barrier.waiters barrier.error) barrier.addr

/-- Record a waiter for later wakeup. -/
def recordWaiter (s : Server) (barrier : Barrier) (w : Waiter) : Server :=
  let barrier := { barrier with
    waiters := barrier.waiters ++ [w]
    error := if w.error > barrier.error then w.error else barrier.error }
  checkBarrier (if w.istcp then
      { s with tcpsockets := Function.update s.tcpsockets w.sock (some (.barrier barrier.addr)) }
    else s)
    barrier

/-- Handle a barrier request. The result is not zero if it is rejected. -/
def handleRequest (s : Server) (sock ipaddr : Nat) (req : BarrierReq) (istcp : Bool) : Int × Server :=
  let (s, barrier) := findBarrier s req.name
  if req.request = BARRIER_INIT then
    let barrier := { barrier with count := toInt32 (barrier.count + req.count) }
    if req.flags &&& BARRIER_INIT_NOWAIT ≠ 0 then
      (0, checkBarrier (releaseClient s sock ipaddr istcp 0) barrier)
    else
      (0, recordWaiter s barrier
        { count := req.count, sock := sock, istcp := istcp, error := req.error, ipaddr := ipaddr })
  else if req.request = BARRIER_WAIT then
    let barrier := { barrier with count := toInt32 (barrier.count - 1) }
    (0, recordWaiter s barrier { count := -1, sock := sock, istcp := istcp, error := req.error, ipaddr := ipaddr })
  else
    (1, s)

/-- The loop of `remove_tcpclient` over the waiters: what is left of the count. -/
def withdrawCount (sock : Nat) (count : Int) (waiters : List Waiter) : Int :=
  waiters.foldl (fun count w => if w.sock = sock then toInt32 (count - w.count) else count) count

/-- The same loop: from the first entry of the client on, all entries are moved down. -/
def packWaiters (sock : Nat) (waiters : List Waiter) : List Waiter :=
  (waiters.eraseP fun w => w.sock = sock).take (waiters.length - 1)

/-- Remove a TCP client from the waiter list without trying to respond. `none` means that the
    pointer does not lead to a barrier. -/
def removeTcpclient (s : Server) (sock : Nat) : Option Server :=
  match s.tcpsockets sock with
  | some (.barrier addr) =>
    match s.allbarriers.find? fun b => b.addr = addr with
    | some barrier =>
      let s := { s with tcpsockets := Function.update s.tcpsockets sock none }
      let barrier := { barrier with
        count := withdrawCount sock barrier.count barrier.waiters
        waiters := packWaiters sock barrier.waiters }
      some (if barrier.waiters = [] then removeBarrier s barrier.addr else putBarrier s barrier)
    | none => none
  | _ => none

/-- Clear all barriers and release their waiters with an error code. -/
def clearBarriers (s : Server) : Server :=
  { s.allbarriers.foldl (fun s b => releaseAll s b.waiters SERVER_ERROR_SIGHUP) s with
    allbarriers := [] }

end Emulab.Syncd
