import Emulab.Syncd.Tables

/-! # Requests to the synchronization server

  A request is rejected, or answered at once, or its client is recorded. The
  barrier is then looked at once more: where its count is zero, all of its
  clients are released.
-/

namespace Emulab.Syncd

open MachineInt

/-- The sockets that are closed when a barrier with these clients is checked. -/
def crossed (b : Barrier) : List Nat := if b.count = 0 then tcpSocks b.waiters else []

theorem checkBarrier_sockets (s : Server) (b : Barrier) :
    (∀ fd, (checkBarrier s b).tcpsockets fd = if fd ∈ crossed b then none else s.tcpsockets fd) ∧
      ∀ fd, (checkBarrier s b).opened fd = if fd ∈ crossed b then false else s.opened fd := by
  unfold checkBarrier crossed
  by_cases hcount : b.count = 0
  · simp only [hcount, ne_eq, not_true_eq_false, if_false, if_true]
    rw [releaseAll_eq]
    exact ⟨fun fd => rfl, fun fd => rfl⟩
  · simp only [hcount, ne_eq, not_false_eq_true, if_true, if_false, List.not_mem_nil]
    exact ⟨fun fd => rfl, fun fd => rfl⟩

theorem mem_checkBarrier {s : Server} {b b' : Barrier} (hb' : b' ∈ (checkBarrier s b).allbarriers) :
    b' ∈ s.allbarriers ∨ b' = b := by
  unfold checkBarrier at hb'
  split at hb'
  · rcases mem_putBarrier.mp hb' with hb' | hb'
    · exact .inl hb'.1
    · exact .inr hb'.1
  · rw [releaseAll_eq] at hb'
    exact .inl (List.mem_of_mem_eraseP hb')

theorem findBarrier_same (s : Server) (name : List Byte) : (findBarrier s name).1.tcpsockets = s.tcpsockets ∧
      (findBarrier s name).1.opened = s.opened ∧ (findBarrier s name).1.udpsock = s.udpsock ∧
      ∀ b ∈ (findBarrier s name).1.allbarriers, b ∈ s.allbarriers ∨ b.waiters = [] := by
  unfold findBarrier
  split
  · exact ⟨rfl, rfl, rfl, fun b hb => .inl hb⟩
  · refine ⟨rfl, rfl, rfl, fun b hb => ?_⟩
    rcases List.mem_cons.mp hb with rfl | hb
    · exact .inr rfl
    · exact .inl hb

/-- Which barrier has a name does not depend on the descriptors. -/
theorem findBarrier_opened (s : Server) (opened : Nat → Bool) (name : List Byte) :
    (findBarrier { s with opened := opened } name).2 = (findBarrier s name).2 := by
  unfold findBarrier
  simp only
  split
  · rfl
  · rfl

def BarrierReq.Records (req : BarrierReq) : Prop :=
  req.request = BARRIER_WAIT ∨ req.request = BARRIER_INIT ∧ req.flags &&& BARRIER_INIT_NOWAIT = 0

def BarrierReq.contribution (req : BarrierReq) : Int :=
  if req.request = BARRIER_INIT then req.count else -1

def requestCount (s : Server) (req : BarrierReq) : Int :=
  toInt32 ((findBarrier s req.name).2.count + req.contribution)

inductive Handled (s : Server) (sock ipaddr : Nat) (req : BarrierReq) (istcp : Bool) :
    Int × Server → Prop where
  | rejected (h : req.request ≠ BARRIER_INIT ∧ req.request ≠ BARRIER_WAIT) :
    Handled s sock ipaddr req istcp (1, (findBarrier s req.name).1)
  | nowait (h : req.request = BARRIER_INIT ∧ req.flags &&& BARRIER_INIT_NOWAIT ≠ 0) :
    Handled s sock ipaddr req istcp (0, checkBarrier (releaseClient (findBarrier s req.name).1 sock ipaddr istcp 0)
        { (findBarrier s req.name).2 with count := requestCount s req })
  | recorded (w : Waiter) (h : req.Records)
    (hw : w = { count := req.contribution, sock := sock, istcp := istcp, error := req.error
                ipaddr := ipaddr }) :
    Handled s sock ipaddr req istcp (0, recordWaiter (findBarrier s req.name).1
        { (findBarrier s req.name).2 with count := requestCount s req } w)

theorem handleRequest_cases (s : Server) (sock ipaddr : Nat) (req : BarrierReq) (istcp : Bool) :
    Handled s sock ipaddr req istcp (handleRequest s sock ipaddr req istcp) := by
  have hcount : requestCount s req = toInt32 ((findBarrier s req.name).2.count + req.contribution) := rfl
  unfold handleRequest
  simp only
  by_cases hinit : req.request = BARRIER_INIT
  · have hadd : req.contribution = req.count := if_pos hinit
    rw [hadd] at hcount
    rw [if_pos hinit]
    by_cases hnowait : req.flags &&& BARRIER_INIT_NOWAIT = 0
    · rw [if_neg (not_not.mpr hnowait), ← hcount]
      refine .recorded _ (.inr ⟨hinit, hnowait⟩) ?_
      rw [hadd]
    · rw [if_pos hnowait, ← hcount]
      exact .nowait ⟨hinit, hnowait⟩
  · rw [if_neg hinit]
    by_cases hwait : req.request = BARRIER_WAIT
    · have hadd : req.contribution = -1 := if_neg hinit
      rw [hadd, ← Int.sub_eq_add_neg] at hcount
      rw [if_pos hwait, ← hcount]
      refine .recorded _ (.inl hwait) ?_
      rw [hadd]
    · rw [if_neg hwait]
      exact .rejected ⟨hinit, hwait⟩

/-- There is room for the client of a request. -/
def HasRoom (s : Server) (req : BarrierReq) : Prop :=
  req.Records → (findBarrier s req.name).2.waiters.length < MAXWAITERS

instance (req : BarrierReq) : Decidable req.Records :=
  inferInstanceAs (Decidable (req.request = BARRIER_WAIT ∨
    req.request = BARRIER_INIT ∧ req.flags &&& BARRIER_INIT_NOWAIT = 0))

instance (s : Server) (req : BarrierReq) : Decidable (HasRoom s req) :=
  inferInstanceAs (Decidable (req.Records → (findBarrier s req.name).2.waiters.length < MAXWAITERS))

/-- No list of waiters gets too long. -/
theorem request_waiters {s : Server} (h : TablesOk s)
    (hlen : ∀ b ∈ s.allbarriers, b.waiters.length ≤ MAXWAITERS) {req : BarrierReq} (hroom : HasRoom s req)
    (sock ipaddr : Nat) (istcp : Bool) :
    ∀ b ∈ (handleRequest s sock ipaddr req istcp).2.allbarriers, b.waiters.length ≤ MAXWAITERS := by
  obtain ⟨-, hmem⟩ := findBarrier_spec h req.name
  obtain ⟨-, -, -, hsame⟩ := findBarrier_same s req.name
  have hfound : ∀ b ∈ (findBarrier s req.name).1.allbarriers, b.waiters.length ≤ MAXWAITERS := by
    intro b hb
    rcases hsame b hb with hb | hnil
    · exact hlen b hb
    · rw [hnil]
      exact Nat.zero_le _
  have hcases := handleRequest_cases s sock ipaddr req istcp
  generalize handleRequest s sock ipaddr req istcp = r at hcases
  cases hcases with
  | rejected _ => exact hfound
  | nowait _ =>
    intro b hb
    rcases mem_checkBarrier hb with hb | rfl
    · apply hfound
      unfold releaseClient at hb
      split at hb
      · exact hb
      · exact hb
    · show (findBarrier s req.name).2.waiters.length ≤ MAXWAITERS
      exact hfound _ hmem
  | recorded w hrec _ =>
    intro b hb
    rcases mem_checkBarrier hb with hb | rfl
    · apply hfound
      split at hb
      · exact hb
      · exact hb
    · have := hroom hrec
      simp only [List.length_append, List.length_singleton]
      omega

theorem request_listening (s : Server) (sock ipaddr : Nat) (req : BarrierReq) (istcp : Bool) :
    (handleRequest s sock ipaddr req istcp).2.tcpsock = s.tcpsock ∧
      (handleRequest s sock ipaddr req istcp).2.udpsock = s.udpsock := by
  have hfound : (findBarrier s req.name).1.tcpsock = s.tcpsock ∧
      (findBarrier s req.name).1.udpsock = s.udpsock := by
    unfold findBarrier
    split
    · exact ⟨rfl, rfl⟩
    · exact ⟨rfl, rfl⟩
  have hcheck : ∀ (s : Server) (b : Barrier), (checkBarrier s b).tcpsock = s.tcpsock ∧
      (checkBarrier s b).udpsock = s.udpsock := by
    intro s b
    unfold checkBarrier
    split
    · exact ⟨rfl, rfl⟩
    · rw [releaseAll_eq]
      exact ⟨rfl, rfl⟩
  have hcases := handleRequest_cases s sock ipaddr req istcp
  generalize handleRequest s sock ipaddr req istcp = r at hcases
  cases hcases with
  | rejected _ => exact hfound
  | nowait _ =>
    obtain ⟨htcp, hudp⟩ := hcheck
      (releaseClient (findBarrier s req.name).1 sock ipaddr istcp 0)
      { (findBarrier s req.name).2 with count := requestCount s req }
    rw [htcp, hudp]
    unfold releaseClient
    split
    · exact hfound
    · exact hfound
  | recorded w _ _ =>
    unfold recordWaiter
    simp only
    rw [(hcheck _ _).1, (hcheck _ _).2]
    split
    · exact hfound
    · exact hfound

end Emulab.Syncd
