import Emulab.Syncd.Barrier

/-! # The tables of the synchronization server

  The barriers and the map from sockets to barriers are kept in step: a socket
  leads to a barrier exactly if the client is among the waiters of it.
-/

namespace Emulab.Syncd

open MachineInt Function

/-! ## Section 1: What the operations do -/

/-- The sockets of the clients that wait over TCP. -/
def tcpSocks (waiters : List Waiter) : List Nat := (waiters.filter (·.istcp)).map (·.sock)

theorem mem_tcpSocks {waiters : List Waiter} {sock : Nat} :
    sock ∈ tcpSocks waiters ↔ ∃ w ∈ waiters, w.istcp = true ∧ w.sock = sock := by
  simp [tcpSocks, and_assoc]

@[simp] theorem tcpSocks_append (l l' : List Waiter) : tcpSocks (l ++ l') = tcpSocks l ++ tcpSocks l' := by
  simp [tcpSocks]

/-- The answers to some clients. -/
def answersTo (waiters : List Waiter) (result : Int) : List Answer :=
  waiters.map fun w => { sock := w.sock, ipaddr := w.ipaddr, istcp := w.istcp, result := result }

/-- All clients of a list are answered, and the sockets of those that wait over TCP are closed. -/
theorem releaseAll_eq (s : Server) (waiters : List Waiter) (result : Int) : releaseAll s waiters result = { s with
      answers := s.answers ++ answersTo waiters result
      tcpsockets := fun fd => if fd ∈ tcpSocks waiters then none else s.tcpsockets fd
      opened := fun fd => if fd ∈ tcpSocks waiters then false else s.opened fd } := by
  induction waiters generalizing s with
  | nil => simp [releaseAll, answersTo, tcpSocks]
  | cons w waiters ih =>
    have hcons : releaseAll s (w :: waiters) result =
        releaseAll (releaseClient s w.sock w.ipaddr w.istcp result) waiters result := rfl
    rw [hcons, ih]
    unfold releaseClient
    by_cases htcp : w.istcp = true
    · have hsocks : tcpSocks (w :: waiters) = w.sock :: tcpSocks waiters := by
        simp [tcpSocks, htcp]
      simp only [htcp, if_true, hsocks, Server.close, answersTo, List.map_cons, List.append_assoc,
        List.singleton_append, List.mem_cons]
      congr 1
      · funext fd
        by_cases hfd : fd = w.sock
        · simp [hfd]
        · simp [hfd]
      · funext fd
        by_cases hfd : fd = w.sock
        · simp [hfd]
        · simp [hfd]
    · have hsocks : tcpSocks (w :: waiters) = tcpSocks waiters := by
        simp [tcpSocks, htcp]
      simp [htcp, hsocks, answersTo]

theorem mem_putBarrier {s : Server} {b b' : Barrier} :
    b' ∈ (putBarrier s b).allbarriers ↔ b' ∈ s.allbarriers ∧ b'.addr ≠ b.addr ∨
      b' = b ∧ ∃ b₀ ∈ s.allbarriers, b₀.addr = b.addr := by
  unfold putBarrier
  simp only [List.mem_map]
  constructor
  · rintro ⟨b₀, hb₀, rfl⟩
    split
    · rename_i heq
      exact .inr ⟨rfl, b₀, hb₀, heq⟩
    · rename_i hne
      exact .inl ⟨hb₀, hne⟩
  · rintro (⟨hb', hne⟩ | ⟨rfl, b₀, hb₀, heq⟩)
    · exact ⟨b', hb', if_neg hne⟩
    · exact ⟨b₀, hb₀, if_pos heq⟩

theorem addrs_putBarrier (s : Server) (b : Barrier) :
    (putBarrier s b).allbarriers.map (·.addr) = s.allbarriers.map (·.addr) := by
  unfold putBarrier
  rw [List.map_map]
  apply List.map_congr_left
  intro b₀ _
  show (if b₀.addr = b.addr then b else b₀).addr = b₀.addr
  split
  · rename_i heq
    exact heq.symm
  · rfl

/-- Where no two elements have the same key, erasing the first one with a key erases all. -/
theorem eraseP_eq_filter {α : Type} (f : α → Nat) {l : List α} (h : (l.map f).Nodup) (k : Nat) :
    l.eraseP (fun a => f a = k) = l.filter fun a => f a ≠ k := by
  induction l with
  | nil => rfl
  | cons a l ih =>
    rw [List.map_cons, List.nodup_cons] at h
    by_cases ha : f a = k
    · rw [List.eraseP_cons_of_pos (by simpa using ha), List.filter_cons_of_neg (by simpa using ha)]
      symm
      rw [List.filter_eq_self]
      intro b hb
      simp only [ne_eq, decide_not, Bool.not_eq_eq_eq_not, Bool.not_true, decide_eq_false_iff_not]
      rintro rfl
      exact h.1 (ha ▸ List.mem_map_of_mem hb)
    · rw [List.eraseP_cons_of_neg (by simpa using ha), List.filter_cons_of_pos (by simpa using ha), ih h.2]

theorem mem_removeBarrier {s : Server} (hnodup : (s.allbarriers.map (·.addr)).Nodup) {addr : Nat}
    {b : Barrier} : b ∈ (removeBarrier s addr).allbarriers ↔ b ∈ s.allbarriers ∧ b.addr ≠ addr := by
  unfold removeBarrier
  simp only
  rw [eraseP_eq_filter _ hnodup]
  simp

/-! ## Section 2: The invariant -/

structure TablesOk (s : Server) : Prop where
  addrs : (s.allbarriers.map (·.addr)).Nodup
  fresh : ∀ b ∈ s.allbarriers, b.addr < s.nextAddr
  /-- The socket of a client that waits over TCP leads to its barrier. -/
  tcp : ∀ b ∈ s.allbarriers, ∀ sock ∈ tcpSocks b.waiters, s.tcpsockets sock = some (.barrier b.addr)
  /-- All clients that wait over UDP have one socket. -/
  udp : ∀ b ∈ s.allbarriers, ∀ w ∈ b.waiters, w.istcp = false → w.sock = s.udpsock
  once : ∀ b ∈ s.allbarriers, (tcpSocks b.waiters).Nodup
  /-- A socket that leads to a barrier is open, and its client waits there. -/
  ptr : ∀ sock addr, s.tcpsockets sock = some (.barrier addr) → s.opened sock = true ∧
    ∃ b ∈ s.allbarriers, b.addr = addr ∧ sock ∈ tcpSocks b.waiters
  listening : ∀ sock, s.tcpsockets sock = some .sentinel ↔ sock = s.tcpsock ∨ sock = s.udpsock
  opened : s.opened s.tcpsock = true ∧ s.opened s.udpsock = true

theorem tablesOk_start (tcpsock udpsock : Nat) : TablesOk (.start tcpsock udpsock) where
  addrs := List.nodup_nil
  fresh := by simp [Server.start]
  tcp := by simp [Server.start]
  udp := by simp [Server.start]
  once := by simp [Server.start]
  ptr := by
    intro sock addr h
    simp [Server.start] at h
  listening sock := by
    by_cases h : sock = tcpsock ∨ sock = udpsock
    · simp [Server.start, h]
    · simp [Server.start, h]
  opened := by simp [Server.start]

section

variable {s : Server}

theorem TablesOk.unique (h : TablesOk s) {b b' : Barrier} (hb : b ∈ s.allbarriers)
    (hb' : b' ∈ s.allbarriers) (haddr : b.addr = b'.addr) : b = b' :=
  List.inj_on_of_nodup_map h.addrs hb hb' haddr

variable {sock : Nat}

/-- A socket that has no client can be closed. -/
theorem TablesOk.close (h : TablesOk s) (hnone : s.tcpsockets sock = none) : TablesOk (s.close sock) := by
  have hopen : ∀ fd, fd ≠ sock → (s.close sock).opened fd = s.opened fd := fun fd hne =>
    update_of_ne hne _ _
  have hlisten : ∀ fd, fd = s.tcpsock ∨ fd = s.udpsock → fd ≠ sock := by
    rintro fd hfd rfl
    rw [(h.listening fd).mpr hfd] at hnone
    cases hnone
  exact { h with
    ptr := fun fd addr hptr => by
      have hne : fd ≠ sock := by
        rintro rfl
        have : s.tcpsockets fd = some (.barrier addr) := hptr
        rw [this] at hnone
        cases hnone
      rw [hopen fd hne]
      exact h.ptr fd addr hptr
    opened := ⟨(hopen _ (hlisten _ (.inl rfl))).trans h.opened.1,
      (hopen _ (hlisten _ (.inr rfl))).trans h.opened.2⟩ }

theorem TablesOk.accept (h : TablesOk s) (sock : Nat) :
    TablesOk { s with opened := update s.opened sock true } := by
  have hopen : ∀ fd, s.opened fd = true → update s.opened sock true fd = true := by
    intro fd hfd
    by_cases heq : fd = sock
    · rw [heq, update_self]
    · rw [update_of_ne heq]
      exact hfd
  exact { h with
    ptr := fun fd addr hptr => ⟨hopen fd (h.ptr fd addr hptr).1, (h.ptr fd addr hptr).2⟩
    opened := ⟨hopen _ h.opened.1, hopen _ h.opened.2⟩ }

theorem TablesOk.of_closed (h : TablesOk s) (hclosed : s.opened sock = false) : s.tcpsockets sock = none := by
  cases hptr : s.tcpsockets sock with
  | none => rfl
  | some p =>
    cases p with
    | sentinel =>
      obtain rfl | rfl := (h.listening sock).mp hptr
      · rw [h.opened.1] at hclosed
        cases hclosed
      · rw [h.opened.2] at hclosed
        cases hclosed
    | barrier addr =>
      rw [(h.ptr sock addr hptr).1] at hclosed
      cases hclosed

theorem findBarrier_spec (h : TablesOk s) (name : List Byte) :
    TablesOk (findBarrier s name).1 ∧ (findBarrier s name).2 ∈ (findBarrier s name).1.allbarriers := by
  unfold findBarrier
  cases hfind : s.allbarriers.find? fun b => b.name = cstr name with
  | some b => exact ⟨h, List.mem_of_find?_eq_some hfind⟩
  | none =>
    refine ⟨?_, List.mem_cons_self⟩
    have hfresh : ∀ b ∈ s.allbarriers, b.addr ≠ s.nextAddr := fun b hb => (h.fresh b hb).ne
    constructor
    · rw [List.map_cons, List.nodup_cons]
      refine ⟨?_, h.addrs⟩
      intro hmem
      obtain ⟨b, hb, heq⟩ := List.mem_map.mp hmem
      exact hfresh b hb heq
    · intro b hb
      rcases List.mem_cons.mp hb with rfl | hb
      · exact Nat.lt_succ_self _
      · exact (h.fresh b hb).trans (Nat.lt_succ_self _)
    · intro b hb sock hsock
      rcases List.mem_cons.mp hb with rfl | hb
      · simp [tcpSocks] at hsock
      · exact h.tcp b hb sock hsock
    · intro b hb w hw
      rcases List.mem_cons.mp hb with rfl | hb
      · simp at hw
      · exact h.udp b hb w hw
    · intro b hb
      rcases List.mem_cons.mp hb with rfl | hb
      · simp [tcpSocks]
      · exact h.once b hb
    · intro sock addr hptr
      obtain ⟨hopen, b, hb, hrest⟩ := h.ptr sock addr hptr
      exact ⟨hopen, b, List.mem_cons_of_mem _ hb, hrest⟩
    · exact h.listening
    · exact h.opened

/-- Storing a barrier whose clients are the same. -/
theorem TablesOk.put (h : TablesOk s) {b b₀ : Barrier} (hb₀ : b₀ ∈ s.allbarriers)
    (haddr : b₀.addr = b.addr) (hwaiters : b₀.waiters = b.waiters) : TablesOk (putBarrier s b) := by
  have hmem : ∀ b' ∈ (putBarrier s b).allbarriers,
      ∃ b'' ∈ s.allbarriers, b''.addr = b'.addr ∧ b''.waiters = b'.waiters := by
    intro b' hb'
    rcases mem_putBarrier.mp hb' with ⟨hb', _⟩ | ⟨rfl, _⟩
    · exact ⟨b', hb', rfl, rfl⟩
    · exact ⟨b₀, hb₀, haddr, hwaiters⟩
  constructor
  · rw [addrs_putBarrier]
    exact h.addrs
  · intro b' hb'
    obtain ⟨b'', hb'', heq, _⟩ := hmem b' hb'
    rw [← heq]
    exact h.fresh b'' hb''
  · intro b' hb'
    obtain ⟨b'', hb'', heq, hw⟩ := hmem b' hb'
    rw [← heq, ← hw]
    exact h.tcp b'' hb''
  · intro b' hb'
    obtain ⟨b'', hb'', heq, hw⟩ := hmem b' hb'
    rw [← hw]
    exact h.udp b'' hb''
  · intro b' hb'
    obtain ⟨b'', hb'', heq, hw⟩ := hmem b' hb'
    rw [← hw]
    exact h.once b'' hb''
  · intro sock addr hptr
    obtain ⟨hopen, b', hb', heq, hsock⟩ := h.ptr sock addr hptr
    refine ⟨hopen, ?_⟩
    by_cases hsame : b'.addr = b.addr
    · have : b' = b₀ := h.unique hb' hb₀ (hsame.trans haddr.symm)
      subst this
      exact ⟨b, mem_putBarrier.mpr (.inr ⟨rfl, b', hb', haddr⟩), haddr ▸ heq, hwaiters ▸ hsock⟩
    · exact ⟨b', mem_putBarrier.mpr (.inl ⟨hb', hsame⟩), heq, hsock⟩
  · exact h.listening
  · exact h.opened

/-- All clients of a barrier that is stored are answered, and it is removed. -/
theorem TablesOk.cross {b : Barrier} (h : TablesOk (putBarrier s b))
    (hb : ∃ b₀ ∈ s.allbarriers, b₀.addr = b.addr) (result : Int) :
    TablesOk (removeBarrier (releaseAll s b.waiters result) b.addr) := by
  have hin : b ∈ (putBarrier s b).allbarriers := mem_putBarrier.mpr (.inr ⟨rfl, hb⟩)
  have haddrs : (s.allbarriers.map (·.addr)).Nodup := addrs_putBarrier s b ▸ h.addrs
  rw [releaseAll_eq]
  -- what remains are the other barriers
  have hmem : ∀ b', b' ∈ s.allbarriers ∧ b'.addr ≠ b.addr →
      b' ∈ (putBarrier s b).allbarriers := fun b' hb' => mem_putBarrier.mpr (.inl hb')
  have hrest : ∀ {b'}, b' ∈ (removeBarrier { s with
      answers := s.answers ++ answersTo b.waiters result
      tcpsockets := fun fd => if fd ∈ tcpSocks b.waiters then none else s.tcpsockets fd
      opened := fun fd => if fd ∈ tcpSocks b.waiters then false else s.opened fd }
      b.addr).allbarriers ↔ b' ∈ s.allbarriers ∧ b'.addr ≠ b.addr :=
    mem_removeBarrier (by exact haddrs)
  -- their clients are not released
  have hkept : ∀ fd p, s.tcpsockets fd = some p → p ≠ .barrier b.addr → fd ∉ tcpSocks b.waiters := by
    intro fd p hp hne hfd
    have : s.tcpsockets fd = some (.barrier b.addr) := h.tcp b hin fd hfd
    rw [hp] at this
    exact hne (Option.some.inj this)
  constructor
  · exact haddrs.sublist (List.eraseP_sublist.map _)
  · intro b' hb'
    exact h.fresh b' (hmem b' (hrest.mp hb'))
  · intro b' hb' sock hsock
    have hb'' := hrest.mp hb'
    have hptr : s.tcpsockets sock = some (.barrier b'.addr) := h.tcp b' (hmem b' hb'') sock hsock
    show (if sock ∈ tcpSocks b.waiters then none else s.tcpsockets sock) = _
    rw [if_neg (hkept sock _ hptr fun heq => hb''.2 (BarrierPtr.barrier.inj heq))]
    exact hptr
  · intro b' hb'
    exact h.udp b' (hmem b' (hrest.mp hb'))
  · intro b' hb'
    exact h.once b' (hmem b' (hrest.mp hb'))
  · intro sock addr hptr
    have hptr : (if sock ∈ tcpSocks b.waiters then none else s.tcpsockets sock) =
        some (.barrier addr) := hptr
    show (if sock ∈ tcpSocks b.waiters then false else s.opened sock) = true ∧ _
    by_cases hsock : sock ∈ tcpSocks b.waiters
    · rw [if_pos hsock] at hptr
      cases hptr
    · rw [if_neg hsock] at hptr
      rw [if_neg hsock]
      obtain ⟨hopen, b', hb', heq, hw⟩ := h.ptr sock addr hptr
      refine ⟨hopen, b', ?_, heq, hw⟩
      rcases mem_putBarrier.mp hb' with hb' | ⟨rfl, -⟩
      · exact hrest.mpr hb'
      · exact absurd hw hsock
  · intro sock
    show (if sock ∈ tcpSocks b.waiters then none else s.tcpsockets sock) = _ ↔ _
    by_cases hsock : sock ∈ tcpSocks b.waiters
    · have hptr : s.tcpsockets sock = some (.barrier b.addr) := h.tcp b hin sock hsock
      have hlist : s.tcpsockets sock = some .sentinel ↔ sock = s.tcpsock ∨ sock = s.udpsock :=
        h.listening sock
      rw [hptr] at hlist
      rw [if_pos hsock]
      simp only [reduceCtorEq, Option.some.injEq, false_iff] at hlist ⊢
      exact hlist
    · rw [if_neg hsock]
      exact h.listening sock
  · have hlist : ∀ fd, fd = s.tcpsock ∨ fd = s.udpsock → fd ∉ tcpSocks b.waiters := fun fd hfd =>
      hkept fd .sentinel ((h.listening fd).mpr hfd) (by simp)
    show (if s.tcpsock ∈ tcpSocks b.waiters then false else s.opened s.tcpsock) = true ∧
      (if s.udpsock ∈ tcpSocks b.waiters then false else s.opened s.udpsock) = true
    rw [if_neg (hlist _ (.inl rfl)), if_neg (hlist _ (.inr rfl))]
    exact h.opened

theorem TablesOk.check {b : Barrier} (h : TablesOk (putBarrier s b))
    (hb : ∃ b₀ ∈ s.allbarriers, b₀.addr = b.addr) : TablesOk (checkBarrier s b) := by
  unfold checkBarrier
  split
  · exact h
  · exact h.cross hb _

/-- A client that waits over UDP is added to a barrier that is stored. -/
theorem TablesOk.enrollUdp {b : Barrier} (h : TablesOk (putBarrier s b))
    (hb : ∃ b₀ ∈ s.allbarriers, b₀.addr = b.addr) {w : Waiter} (htcp : w.istcp = false)
    (hsock : w.sock = s.udpsock) (error : Int) :
    TablesOk (putBarrier s { b with waiters := b.waiters ++ [w], error := error }) := by
  have hin : b ∈ (putBarrier s b).allbarriers := mem_putBarrier.mpr (.inr ⟨rfl, hb⟩)
  have hsocks : tcpSocks (b.waiters ++ [w]) = tcpSocks b.waiters := by
    simp [tcpSocks, htcp]
  constructor
  · rw [addrs_putBarrier, ← addrs_putBarrier s b]
    exact h.addrs
  · intro b' hb'
    rcases mem_putBarrier.mp hb' with hb' | ⟨rfl, _⟩
    · exact h.fresh b' (mem_putBarrier.mpr (.inl hb'))
    · exact h.fresh b hin
  · intro b' hb'
    rcases mem_putBarrier.mp hb' with hb' | ⟨rfl, _⟩
    · exact h.tcp b' (mem_putBarrier.mpr (.inl hb'))
    · simp only [hsocks]
      exact h.tcp b hin
  · intro b' hb'
    rcases mem_putBarrier.mp hb' with hb' | ⟨rfl, _⟩
    · exact h.udp b' (mem_putBarrier.mpr (.inl hb'))
    · intro w' hw' hudp
      rcases List.mem_append.mp hw' with hw' | hw'
      · exact h.udp b hin w' hw' hudp
      · obtain rfl := List.mem_singleton.mp hw'
        exact hsock
  · intro b' hb'
    rcases mem_putBarrier.mp hb' with hb' | ⟨rfl, _⟩
    · exact h.once b' (mem_putBarrier.mpr (.inl hb'))
    · simp only [hsocks]
      exact h.once b hin
  · intro sock addr hptr
    obtain ⟨hopen, b', hb', heq, hmem⟩ := h.ptr sock addr hptr
    refine ⟨hopen, ?_⟩
    rcases mem_putBarrier.mp hb' with hb' | ⟨rfl, _⟩
    · exact ⟨b', mem_putBarrier.mpr (.inl hb'), heq, hmem⟩
    · refine ⟨_, mem_putBarrier.mpr (.inr ⟨rfl, hb⟩), heq, ?_⟩
      simp only [hsocks]
      exact hmem
  · exact h.listening
  · exact h.opened

/-- A client that waits over TCP is added, and its socket leads to the barrier. -/
theorem TablesOk.enrollTcp {b : Barrier} (h : TablesOk (putBarrier s b))
    (hb : ∃ b₀ ∈ s.allbarriers, b₀.addr = b.addr) {w : Waiter} (htcp : w.istcp = true)
    (hnone : s.tcpsockets w.sock = none) (hopen : s.opened w.sock = true) (error : Int) :
    TablesOk (putBarrier { s with tcpsockets := update s.tcpsockets w.sock (some (.barrier b.addr)) }
      { b with waiters := b.waiters ++ [w], error := error }) := by
  have hin : b ∈ (putBarrier s b).allbarriers := mem_putBarrier.mpr (.inr ⟨rfl, hb⟩)
  have hsocks : tcpSocks (b.waiters ++ [w]) = tcpSocks b.waiters ++ [w.sock] := by
    simp [tcpSocks, htcp]
  have hother : ∀ fd p, s.tcpsockets fd = some p →
      update s.tcpsockets w.sock (some (.barrier b.addr)) fd = some p := by
    intro fd p hp
    have hne : fd ≠ w.sock := by
      rintro rfl
      rw [hp] at hnone
      cases hnone
    rw [update_of_ne hne]
    exact hp
  constructor
  · rw [addrs_putBarrier]
    have := h.addrs
    rw [addrs_putBarrier] at this
    exact this
  · intro b' hb'
    rcases mem_putBarrier.mp hb' with hb' | ⟨rfl, _⟩
    · exact h.fresh b' (mem_putBarrier.mpr (.inl hb'))
    · exact h.fresh b hin
  · intro b' hb' sock hsock
    rcases mem_putBarrier.mp hb' with hb' | ⟨rfl, _⟩
    · exact hother _ _ (h.tcp b' (mem_putBarrier.mpr (.inl hb')) sock hsock)
    · simp only [hsocks, List.mem_append, List.mem_singleton] at hsock
      rcases hsock with hsock | rfl
      · exact hother _ _ (h.tcp b hin sock hsock)
      · exact update_self _ _ _
  · intro b' hb'
    rcases mem_putBarrier.mp hb' with hb' | ⟨rfl, _⟩
    · exact h.udp b' (mem_putBarrier.mpr (.inl hb'))
    · intro w' hw' hudp
      rcases List.mem_append.mp hw' with hw' | hw'
      · exact h.udp b hin w' hw' hudp
      · obtain rfl := List.mem_singleton.mp hw'
        rw [htcp] at hudp
        cases hudp
  · intro b' hb'
    rcases mem_putBarrier.mp hb' with hb' | ⟨rfl, _⟩
    · exact h.once b' (mem_putBarrier.mpr (.inl hb'))
    · simp only [hsocks]
      rw [List.nodup_append]
      refine ⟨h.once b hin, List.nodup_singleton _, ?_⟩
      rintro fd hfd fd' hfd' rfl
      obtain rfl := List.mem_singleton.mp hfd'
      have : s.tcpsockets w.sock = some (.barrier b.addr) := h.tcp b hin _ hfd
      rw [hnone] at this
      cases this
  · intro sock addr hptr
    by_cases hsock : sock = w.sock
    · subst hsock
      have hptr : update s.tcpsockets w.sock (some (.barrier b.addr)) w.sock =
          some (.barrier addr) := hptr
      rw [update_self] at hptr
      obtain rfl := BarrierPtr.barrier.inj (Option.some.inj hptr)
      refine ⟨hopen, _, mem_putBarrier.mpr (.inr ⟨rfl, hb⟩), rfl, ?_⟩
      simp only [hsocks]
      simp
    · have hptr' : s.tcpsockets sock = some (.barrier addr) :=
        (update_of_ne hsock _ _).symm.trans hptr
      obtain ⟨hopen', b', hb', heq, hmem⟩ := h.ptr sock addr hptr'
      refine ⟨hopen', ?_⟩
      rcases mem_putBarrier.mp hb' with hb' | ⟨rfl, _⟩
      · exact ⟨b', mem_putBarrier.mpr (.inl hb'), heq, hmem⟩
      · refine ⟨_, mem_putBarrier.mpr (.inr ⟨rfl, hb⟩), heq, ?_⟩
        simp only [hsocks]
        exact List.mem_append_left _ hmem
  · intro sock
    have hlist : s.tcpsockets sock = some .sentinel ↔ sock = s.tcpsock ∨ sock = s.udpsock := h.listening sock
    by_cases hsock : sock = w.sock
    · subst hsock
      rw [hnone] at hlist
      show update s.tcpsockets w.sock (some (.barrier b.addr)) w.sock = some .sentinel ↔ _
      rw [update_self]
      simp only [reduceCtorEq, Option.some.injEq, false_iff] at hlist ⊢
      exact hlist
    · show update s.tcpsockets w.sock (some (.barrier b.addr)) sock = some .sentinel ↔ _
      rw [update_of_ne hsock]
      exact hlist
  · exact h.opened

/-- A client can wait that has just connected, or that has sent a datagram. -/
def CanWait (s : Server) (sock : Nat) (istcp : Bool) : Prop :=
  if istcp then s.tcpsockets sock = none ∧ s.opened sock = true else sock = s.udpsock

theorem TablesOk.record (h : TablesOk s) {b b₀ : Barrier} (hb₀ : b₀ ∈ s.allbarriers)
    (haddr : b₀.addr = b.addr) (hwaiters : b₀.waiters = b.waiters) {w : Waiter}
    (hw : CanWait s w.sock w.istcp) : TablesOk (recordWaiter s b w) := by
  have hput := h.put hb₀ haddr hwaiters
  have hb : ∃ b₀ ∈ s.allbarriers, b₀.addr = b.addr := ⟨b₀, hb₀, haddr⟩
  unfold CanWait at hw
  unfold recordWaiter
  cases htcp : w.istcp with
  | true =>
    simp only [htcp, if_true] at hw ⊢
    exact TablesOk.check (hput.enrollTcp hb htcp hw.1 hw.2 _) hb
  | false =>
    simp only [htcp, Bool.false_eq_true, if_false] at hw ⊢
    exact TablesOk.check (hput.enrollUdp hb htcp hw _) hb

theorem TablesOk.release (h : TablesOk s) {istcp : Bool} (hw : CanWait s sock istcp)
    (ipaddr : Nat) (result : Int) : TablesOk (releaseClient s sock ipaddr istcp result) := by
  have hanswers : ∀ answers, TablesOk { s with answers := answers } := fun answers =>
    ⟨h.addrs, h.fresh, h.tcp, h.udp, h.once, h.ptr, h.listening, h.opened⟩
  unfold CanWait at hw
  unfold releaseClient
  cases istcp with
  | true =>
    simp only [if_true] at hw ⊢
    -- the socket leads nowhere, so that nothing changes
    have hsame : update s.tcpsockets sock none = s.tcpsockets := by
      rw [← hw.1, update_eq_self]
    rw [hsame]
    exact (hanswers _).close hw.1
  | false =>
    exact hanswers _

theorem TablesOk.request (h : TablesOk s) {istcp : Bool} (hw : CanWait s sock istcp)
    (ipaddr : Nat) (req : BarrierReq) : TablesOk (handleRequest s sock ipaddr req istcp).2 := by
  obtain ⟨hok, hmem⟩ := findBarrier_spec h req.name
  have hcan : CanWait (findBarrier s req.name).1 sock istcp := by
    have hsame : (findBarrier s req.name).1.tcpsockets = s.tcpsockets ∧
        (findBarrier s req.name).1.opened = s.opened ∧
        (findBarrier s req.name).1.udpsock = s.udpsock := by
      unfold findBarrier
      split
      · exact ⟨rfl, rfl, rfl⟩
      · exact ⟨rfl, rfl, rfl⟩
    unfold CanWait at hw ⊢
    rw [hsame.1, hsame.2.1, hsame.2.2]
    exact hw
  unfold handleRequest
  generalize findBarrier s req.name = found at hok hmem hcan
  obtain ⟨s₁, b⟩ := found
  simp only at hok hmem hcan ⊢
  split
  · split
    · -- the initializer does not wait
      have hrel := hok.release hcan ipaddr 0
      have hsame : (releaseClient s₁ sock ipaddr istcp 0).allbarriers = s₁.allbarriers := by
        unfold releaseClient
        split
        · rfl
        · rfl
      have hmem' : b ∈ (releaseClient s₁ sock ipaddr istcp 0).allbarriers := hsame ▸ hmem
      exact TablesOk.check (hrel.put hmem' rfl rfl) ⟨b, hmem', rfl⟩
    · apply hok.record hmem
      · rfl
      · rfl
      · exact hcan
  · split
    · apply hok.record hmem
      · rfl
      · rfl
      · exact hcan
    · exact hok

theorem packWaiters_eq {waiters : List Waiter} (hsock : sock ∈ tcpSocks waiters) :
    packWaiters sock waiters = waiters.eraseP fun w => w.sock = sock := by
  obtain ⟨w, hw, -, hsock⟩ := mem_tcpSocks.mp hsock
  unfold packWaiters
  rw [List.take_of_length_le]
  rw [List.length_eraseP_of_mem hw (by simpa using hsock)]

theorem tcpSocks_erase {waiters : List Waiter} (hudp : ∀ w ∈ waiters, w.istcp = false → w.sock ≠ sock) :
    tcpSocks (waiters.eraseP fun w => w.sock = sock) = (tcpSocks waiters).erase sock := by
  induction waiters with
  | nil => rfl
  | cons w waiters ih =>
    have ih := ih fun w' hw' => hudp w' (List.mem_cons_of_mem _ hw')
    by_cases hw : w.sock = sock
    · have htcp : w.istcp = true := by
        by_contra hnot
        exact hudp w List.mem_cons_self (by simpa using hnot) hw
      rw [List.eraseP_cons_of_pos (by simpa using hw)]
      simp [tcpSocks, htcp, hw]
    · rw [List.eraseP_cons_of_neg (by simpa using hw)]
      cases htcp : w.istcp with
      | true =>
        have hcons : ∀ l, tcpSocks (w :: l) = w.sock :: tcpSocks l := by simp [tcpSocks, htcp]
        rw [hcons, hcons, ih, List.erase_cons_tail (by simpa using hw)]
      | false =>
        have hcons : ∀ l, tcpSocks (w :: l) = tcpSocks l := by simp [tcpSocks, htcp]
        rw [hcons, hcons, ih]

/-- A socket that leads to a barrier does so until its client has gone away. -/
theorem TablesOk.waiting (h : TablesOk s) {sock addr : Nat} (hptr : s.tcpsockets sock = some (.barrier addr)) :
    ∃ b ∈ s.allbarriers, b.addr = addr ∧ sock ∈ tcpSocks b.waiters ∧
      s.allbarriers.find? (fun b => b.addr = addr) = some b := by
  obtain ⟨-, b, hb, rfl, hsock⟩ := h.ptr sock addr hptr
  refine ⟨b, hb, rfl, hsock, ?_⟩
  cases hfind : s.allbarriers.find? fun b' => b'.addr = b.addr with
  | none =>
    have := List.find?_eq_none.mp hfind b hb
    simp at this
  | some b' =>
    have hmem := List.mem_of_find?_eq_some hfind
    have haddr : b'.addr = b.addr := by simpa using List.find?_some hfind
    rw [h.unique hmem hb haddr]

/-- A barrier without one of its clients. -/
def withdrawn (b : Barrier) (sock : Nat) : Barrier :=
  { b with
    count := withdrawCount sock b.count b.waiters
    waiters := b.waiters.eraseP fun w => w.sock = sock }

/-- What remains when a client has gone away. -/
theorem removeTcpclient_eq (h : TablesOk s) {b : Barrier} (hb : b ∈ s.allbarriers)
    (hsock : sock ∈ tcpSocks b.waiters) :
    removeTcpclient (s.close sock) sock = some (if (withdrawn b sock).waiters = [] then
        removeBarrier { s.close sock with
          tcpsockets := update s.tcpsockets sock none } b.addr
      else
        putBarrier { s.close sock with
          tcpsockets := update s.tcpsockets sock none } (withdrawn b sock)) := by
  have hptr : (s.close sock).tcpsockets sock = some (.barrier b.addr) := h.tcp b hb sock hsock
  have hfind : (s.close sock).allbarriers.find? (fun b' => b'.addr = b.addr) = some b := by
    obtain ⟨b', hb', haddr, -, hfind⟩ := h.waiting hptr
    rw [h.unique hb' hb haddr] at hfind
    exact hfind
  unfold removeTcpclient
  simp only [hptr, hfind, packWaiters_eq hsock]
  rfl

/-- A client goes away. -/
theorem TablesOk.disconnect (h : TablesOk s) {sock addr : Nat} (hptr : s.tcpsockets sock = some (.barrier addr)) :
    ∃ s', removeTcpclient (s.close sock) sock = some s' ∧ TablesOk s' := by
  obtain ⟨b, hb, rfl, hsock, -⟩ := h.waiting hptr
  refine ⟨_, removeTcpclient_eq h hb hsock, ?_⟩
  have hlisten : ∀ fd, fd = s.tcpsock ∨ fd = s.udpsock → fd ≠ sock := by
    rintro fd hfd rfl
    rw [(h.listening fd).mpr hfd] at hptr
    cases hptr
  have hudp : ∀ w ∈ b.waiters, w.istcp = false → w.sock ≠ sock := fun w hw hfalse => by
    rw [h.udp b hb w hw hfalse]
    exact hlisten _ (.inr rfl)
  have hsocks : tcpSocks (withdrawn b sock).waiters = (tcpSocks b.waiters).erase sock := tcpSocks_erase hudp
  have hmemSocks : ∀ fd, fd ∈ tcpSocks (withdrawn b sock).waiters ↔
      fd ≠ sock ∧ fd ∈ tcpSocks b.waiters := fun fd => by
    rw [hsocks, (h.once b hb).mem_erase_iff]
  -- the barrier without the client is in the list, or it is not, and then has no clients
  generalize hs' : (if (withdrawn b sock).waiters = [] then _ else _) = s'
  have hlist : ∀ b' ∈ s'.allbarriers, b' ∈ s.allbarriers ∧ b'.addr ≠ b.addr ∨ b' = withdrawn b sock := by
    intro b' hb'
    rw [← hs'] at hb'
    split at hb'
    · exact .inl ((mem_removeBarrier (by exact h.addrs)).mp hb')
    · rcases mem_putBarrier.mp hb' with hb' | ⟨rfl, -⟩
      · exact .inl hb'
      · exact .inr rfl
  have hother : ∀ b', b' ∈ s.allbarriers → b'.addr ≠ b.addr → b' ∈ s'.allbarriers := by
    intro b' hb' hne
    rw [← hs']
    split
    · exact (mem_removeBarrier (by exact h.addrs)).mpr ⟨hb', hne⟩
    · exact mem_putBarrier.mpr (.inl ⟨hb', hne⟩)
  have htcps : s'.tcpsockets = update s.tcpsockets sock none := by
    rw [← hs']
    split
    · rfl
    · rfl
  have hopened : s'.opened = update s.opened sock false := by
    rw [← hs']
    split
    · rfl
    · rfl
  have hsame : s'.tcpsock = s.tcpsock ∧ s'.udpsock = s.udpsock ∧ s'.nextAddr = s.nextAddr := by
    rw [← hs']
    split
    · exact ⟨rfl, rfl, rfl⟩
    · exact ⟨rfl, rfl, rfl⟩
  constructor
  · rw [← hs']
    split
    · exact h.addrs.sublist (List.eraseP_sublist.map _)
    · rw [addrs_putBarrier]
      exact h.addrs
  · intro b' hb'
    rw [hsame.2.2]
    rcases hlist b' hb' with hb' | rfl
    · exact h.fresh b' hb'.1
    · exact h.fresh b hb
  · intro b' hb' fd hfd
    rw [htcps]
    rcases hlist b' hb' with ⟨hb', hne⟩ | rfl
    · have hfd' := h.tcp b' hb' fd hfd
      have : fd ≠ sock := by
        rintro rfl
        rw [h.tcp b hb fd hsock] at hfd'
        exact hne (BarrierPtr.barrier.inj (Option.some.inj hfd')).symm
      rw [update_of_ne this]
      exact hfd'
    · obtain ⟨hne, hfd⟩ := (hmemSocks fd).mp hfd
      rw [update_of_ne hne]
      exact h.tcp b hb fd hfd
  · intro b' hb'
    rw [hsame.2.1]
    rcases hlist b' hb' with hb' | rfl
    · exact h.udp b' hb'.1
    · exact fun w hw => h.udp b hb w (List.mem_of_mem_eraseP hw)
  · intro b' hb'
    rcases hlist b' hb' with hb' | rfl
    · exact h.once b' hb'.1
    · rw [hsocks]
      exact (h.once b hb).erase _
  · intro fd addr hfd
    rw [htcps] at hfd
    have hne : fd ≠ sock := by
      rintro rfl
      rw [update_self] at hfd
      cases hfd
    rw [update_of_ne hne] at hfd
    rw [hopened, update_of_ne hne]
    obtain ⟨hopen, b', hb', heq, hmem⟩ := h.ptr fd addr hfd
    refine ⟨hopen, ?_⟩
    by_cases haddr : b'.addr = b.addr
    · have := h.unique hb' hb haddr
      subst this
      have hmem' := (hmemSocks fd).mpr ⟨hne, hmem⟩
      have hcons : (withdrawn b' sock).waiters ≠ [] := by
        intro hnil
        rw [hnil] at hmem'
        simp [tcpSocks] at hmem'
      refine ⟨withdrawn b' sock, ?_, heq, hmem'⟩
      rw [← hs', if_neg hcons]
      exact mem_putBarrier.mpr (.inr ⟨rfl, b', hb', rfl⟩)
    · exact ⟨b', hother b' hb' haddr, heq, hmem⟩
  · intro fd
    rw [htcps, hsame.1, hsame.2.1]
    by_cases hfd : fd = sock
    · subst hfd
      rw [update_self]
      simp only [reduceCtorEq, false_iff]
      intro hlist
      exact hlisten fd hlist rfl
    · rw [update_of_ne hfd]
      exact h.listening fd
  · rw [hopened, hsame.1, hsame.2.1, update_of_ne (hlisten _ (.inl rfl)), update_of_ne (hlisten _ (.inr rfl))]
    exact h.opened

theorem clearBarriers_eq (s : Server) : clearBarriers s =
    { releaseAll s (s.allbarriers.flatMap (·.waiters)) SERVER_ERROR_SIGHUP with
      allbarriers := [] } := by
  have hfold : ∀ (l : List Barrier) (s : Server),
      l.foldl (fun s b => releaseAll s b.waiters SERVER_ERROR_SIGHUP) s =
        releaseAll s (l.flatMap (·.waiters)) SERVER_ERROR_SIGHUP := by
    intro l
    induction l with
    | nil => exact fun s => rfl
    | cons b l ih =>
      intro s
      rw [List.foldl_cons, ih]
      unfold releaseAll
      rw [List.flatMap_cons, List.foldl_append]
  unfold clearBarriers
  rw [hfold]

theorem TablesOk.clear (h : TablesOk s) : TablesOk (clearBarriers s) ∧
    ∀ sock addr, (clearBarriers s).tcpsockets sock ≠ some (.barrier addr) := by
  rw [clearBarriers_eq, releaseAll_eq]
  have hsocks : ∀ sock addr, s.tcpsockets sock = some (.barrier addr) →
      sock ∈ tcpSocks (s.allbarriers.flatMap (·.waiters)) := by
    intro sock addr hptr
    obtain ⟨-, b, hb, -, hmem⟩ := h.ptr sock addr hptr
    obtain ⟨w, hw, hrest⟩ := mem_tcpSocks.mp hmem
    exact mem_tcpSocks.mpr ⟨w, List.mem_flatMap.mpr ⟨b, hb, hw⟩, hrest⟩
  have hlisten : ∀ fd, fd = s.tcpsock ∨ fd = s.udpsock → fd ∉ tcpSocks (s.allbarriers.flatMap (·.waiters)) := by
    intro fd hfd hmem
    obtain ⟨w, hw, htcp, rfl⟩ := mem_tcpSocks.mp hmem
    obtain ⟨b, hb, hw⟩ := List.mem_flatMap.mp hw
    have hptr := h.tcp b hb _ (mem_tcpSocks.mpr ⟨w, hw, htcp, rfl⟩)
    rw [(h.listening _).mpr hfd] at hptr
    cases hptr
  have hnone : ∀ sock addr,
      (if sock ∈ tcpSocks (s.allbarriers.flatMap (·.waiters)) then none else s.tcpsockets sock) ≠
        some (.barrier addr) := by
    intro sock addr hptr
    split at hptr
    · cases hptr
    · rename_i hnot
      exact hnot (hsocks sock addr hptr)
  refine ⟨?_, hnone⟩
  constructor
  · exact List.nodup_nil
  · intro b hb
    cases hb
  · intro b hb
    cases hb
  · intro b hb
    cases hb
  · intro b hb
    cases hb
  · intro sock addr hptr
    exact absurd hptr (hnone sock addr)
  · intro sock
    show (if sock ∈ tcpSocks (s.allbarriers.flatMap (·.waiters)) then none
      else s.tcpsockets sock) = some .sentinel ↔ _
    split
    · rename_i hmem
      simp only [reduceCtorEq, false_iff]
      exact fun hfd => hlisten sock hfd hmem
    · exact h.listening sock
  · show (if s.tcpsock ∈ _ then false else s.opened s.tcpsock) = true ∧
      (if s.udpsock ∈ _ then false else s.opened s.udpsock) = true
    rw [if_neg (hlisten _ (.inl rfl)), if_neg (hlisten _ (.inr rfl))]
    exact h.opened

end

end Emulab.Syncd
