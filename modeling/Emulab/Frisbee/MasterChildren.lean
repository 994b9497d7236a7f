import Emulab.Frisbee.MasterFiles

/-! # The master server stays up

  The master server stops if it finds two children of an image of which neither is the
  better one, or if an assertion fails. What it finds depends on the order in which the
  children have been put into the list. -/

namespace Emulab.Frisbee.MasterServer

open Outcome List Option

variable {cfg : Config} {s : Master}

/-! ## Section 1: The list of children -/

/-- The list of children is accounted for: it is as long as its counter says, each child that
    has been started is in it or has exited for good, and of the latter each one's callback has
    been called once if it has one. -/
structure Accounted (s : Master) : Prop where
  count : s.nchildren = s.children.length
  ledger : ((s.children ++ s.gone).map (·.id)).Perm (List.range s.next)
  callbacks : s.callbacks = (s.gone.filter (·.ptype ≠ .server)).map (·.id)

/-- What a child has for its callback, and that it has one method if it has an address. -/
structure Child.Sound (c : Child) : Prop where
  client : c.ptype = .client → ∃ sig size, c.extra = some (.client sig size)
  upload : c.ptype = .uploader → ∃ realname mtime, c.extra = some (.upload realname mtime)
  unicast : c.ptype = .uploader → c.method = MS_METHOD_UNICAST
  one : c.ptype ≠ .client → serverMethod c.method = some c.method

/-- No child is in the way of another. -/
structure Sound (s : Master) : Prop where
  accounted : Accounted s
  ordered : Ordered s.children
  sound : ∀ c ∈ s.children, c.Sound

/-- A child with a method may be put before the children of its image. -/
def MayPrecede (s : Master) (imageid : ImageId) (ptype : PType) (method : Methods) : Prop :=
  ∀ c ∈ s.children, c.imageid = imageid → c.ptype = ptype →
    c.method = MS_METHOD_BROADCAST ∨ c.method = MS_METHOD_MULTICAST ∧ method = MS_METHOD_UNICAST

/-- The methods that the parent is asked for and answers with are those of the master server, and
    a child is only put before those that it is found with in any case. -/
def available (cfg : Config) : Rules where
  masks ii := Supported cfg (fetchMethods cfg ii)
  ask s imageid method := Supported cfg method ∧ NoMatch s.children imageid .client method
  client s imageid method := MayPrecede s imageid .client method
  server s imageid method := MayPrecede s imageid .server method

theorem MayPrecede.follows {ci : Child} (h : MayPrecede s ci.imageid ci.ptype ci.method) :
    ∀ c ∈ s.children, Follows ci c :=
  fun c hc himageid hptype => h c hc himageid.symm hptype.symm

theorem Sound.start {s' : Master} {ci : Child} (h : Sound s) (hstarted : Started s s' ci)
    (hsound : ci.Sound) (hprecede : MayPrecede s ci.imageid ci.ptype ci.method) : Sound s' := by
  rw [hstarted.add]
  refine ⟨⟨?_, ?_, h.accounted.callbacks⟩, ?_, forall_mem_cons.mpr ⟨hsound, h.sound⟩⟩
  · exact congrArg (· + 1) h.accounted.count
  · show (ci.id :: (s.children ++ s.gone).map (·.id)).Perm (List.range (s.next + 1))
    rw [hstarted.id, range_succ]
    exact (h.accounted.ledger.cons s.next).trans (perm_append_singleton _ _).symm
  · exact pairwise_cons.mpr ⟨hprecede.follows, h.ordered⟩

theorem unicast_not_better {p : Prop} : ¬(MS_METHOD_UNICAST = MS_METHOD_BROADCAST ∨
    MS_METHOD_UNICAST = MS_METHOD_MULTICAST ∧ p) := by
  rintro (h | ⟨h, -⟩)
  · exact absurd h (by decide)
  · exact absurd h (by decide)

/-- A child that is taken out of the list leaves the others as they are. -/
theorem Sound.unlink {pid : Nat} {ci : Child} (h : Sound s)
    (hfind : (s.children.find? fun c => c.pid = pid) = some ci) :
    ci.Sound ∧ Ordered (s.unlink pid).children ∧ (∀ c ∈ (s.unlink pid).children, c.Sound) ∧
      (s.unlink pid).nchildren = (s.unlink pid).children.length ∧
      (((s.unlink pid).children ++ ci :: s.gone).map (·.id)).Perm (List.range s.next) ∧
      (ci.ptype = .uploader → MayPrecede (s.unlink pid) ci.imageid ci.ptype ci.method) := by
  obtain ⟨-, before, after, hs, hunlink⟩ := unlink_split hfind
  have hsub : (s.unlink pid).children.Sublist s.children := by
    rw [hunlink, hs]
    exact List.Sublist.append_left (sublist_cons_self ci after) before
  refine ⟨h.sound ci (by rw [hs]; simp), h.ordered.sublist hsub, fun c hc => h.sound c (hsub.mem hc), ?_, ?_, ?_⟩
  · show s.nchildren - 1 = _
    rw [h.accounted.count, hunlink, hs]
    simp
  · refine List.Perm.trans ?_ h.accounted.ledger
    rw [hunlink, hs]
    refine List.Perm.map _ ?_
    rw [append_assoc, append_assoc, cons_append]
    exact perm_middle.append_left before
  · -- there is no other uploader: one of the two would be in the way
    intro hup c hc himageid hptype
    have hci := (h.sound ci (by rw [hs]; simp)).unicast hup
    have hc' := (h.sound c (hsub.mem hc)).unicast (hptype.trans hup)
    have hordered := h.ordered
    rw [hs] at hordered
    obtain ⟨-, hafter, hbefore⟩ := pairwise_append.mp hordered
    rw [hunlink] at hc
    rcases mem_append.mp hc with hc | hc
    · have := hbefore c hc ci mem_cons_self himageid hptype
      rw [hci] at this
      exact absurd this unicast_not_better
    · have := (pairwise_cons.mp hafter).1 c hc himageid.symm hptype.symm
      rw [hc'] at this
      exact absurd this unicast_not_better

/-- A callback finds what it needs, and is called for those that have one. -/
theorem done_yields {ci : Child} {w : Wait} (hci : ci.Sound) :
    Yields False (done s ci w) fun s' => s'.children = s.children ∧ s'.nchildren = s.nchildren ∧
      s'.next = s.next ∧ s'.gone = s.gone ∧
      s'.callbacks = if ci.ptype ≠ .server then ci.id :: s.callbacks else s.callbacks := by
  have hmove : ∀ (s : Master) (file : File), (moveIntoPlace s ci w file).children = s.children ∧
      (moveIntoPlace s ci w file).nchildren = s.nchildren ∧ (moveIntoPlace s ci w file).next = s.next ∧
      (moveIntoPlace s ci w file).gone = s.gone ∧ (moveIntoPlace s ci w file).callbacks = s.callbacks := by
    intro s file
    unfold moveIntoPlace
    split
    · exact ⟨rfl, rfl, rfl, rfl, rfl⟩
    split <;> exact ⟨rfl, rfl, rfl, rfl, rfl⟩
  unfold done
  cases hptype : ci.ptype with
  | server => exact ⟨rfl, rfl, rfl, rfl, rfl⟩
  | client =>
    obtain ⟨sig, size, hextra⟩ := hci.client hptype
    dsimp only
    unfold finishclient
    rw [hextra]
    dsimp only
    split
    · exact ⟨rfl, rfl, rfl, rfl, rfl⟩
    · exact hmove (s.callback ci) _
  | uploader =>
    obtain ⟨realname, mtime, hextra⟩ := hci.upload hptype
    dsimp only
    unfold finishupload
    rw [hextra]
    dsimp only
    split
    · cases realname <;> exact ⟨rfl, rfl, rfl, rfl, rfl⟩
    · cases realname with
      | true => exact hmove (s.callback ci) _
      | false => exact ⟨rfl, rfl, rfl, rfl, rfl⟩

/-- Reaping a child does not fail. One that is restarted is put at the head of the list. -/
theorem Sound.reapOne {w : Wait} (h : Sound s)
    (hrestart : ∀ ci, (s.children.find? fun c => c.pid = w.pid) = some ci → ci.ptype = .server →
      0 < ci.retries → WEXITSTATUS w.status = EADDRINUSE → w.address.isSome = true →
      w.fork.isSome = true → MayPrecede (s.unlink w.pid) ci.imageid .server ci.method) :
    Yields False (reapOne s w) fun p => Sound p.1 := by
  unfold MasterServer.reapOne
  split
  · exact h
  rename_i ci hfind
  obtain ⟨hci, hordered, hsound, hcount, hledger, hup⟩ := h.unlink hfind
  split
  · rename_i s' hrestarted
    obtain ⟨a, method, pid, hfork, haddress, hretries, hstatus, hptype, hmethod, -, rfl⟩ := restart_eq hrestarted
    rw [hci.one hptype] at hmethod
    obtain rfl := some.inj hmethod
    have hprecede : MayPrecede (s.unlink w.pid) ci.imageid ci.ptype ci.method := by
      cases hp : ci.ptype with
      | client => exact absurd hp hptype
      | server => exact hrestart ci hfind hp hretries hstatus haddress (by rw [hfork]; rfl)
      | uploader => exact hp ▸ hup hp
    refine ⟨⟨congrArg (· + 1) hcount, ?_, h.accounted.callbacks⟩, ?_, ?_⟩
    · show (ci.id :: ((s.unlink w.pid).children ++ s.gone).map (·.id)).Perm (List.range s.next)
      exact (perm_middle.symm.map Child.id).trans hledger
    · exact pairwise_cons.mpr ⟨fun c hc himageid hptype => hprecede c hc himageid.symm hptype.symm, hordered⟩
    · exact forall_mem_cons.mpr ⟨⟨hci.client, hci.upload, hci.unicast, hci.one⟩, hsound⟩
  · refine (done_yields hci).bind ?_
    rintro s' ⟨hchildren, hnchildren, hnext, hgone, hcallbacks⟩
    refine ⟨⟨?_, ?_, ?_⟩, ?_, ?_⟩
    · show s'.nchildren = s'.children.length
      rw [hnchildren, hchildren, hcount]
    · show ((s'.children ++ ci :: s'.gone).map (·.id)).Perm (List.range s'.next)
      rw [hchildren, hgone, hnext]
      exact hledger
    · show s'.callbacks = ((ci :: s'.gone).filter (·.ptype ≠ .server)).map (·.id)
      rw [hcallbacks, hgone]
      by_cases hserver : ci.ptype = .server
      · rw [if_neg (not_not.mpr hserver), filter_cons_of_neg (by simpa using hserver)]
        exact h.accounted.callbacks
      · rw [if_pos hserver, filter_cons_of_pos (by simpa using hserver)]
        exact congrArg (ci.id :: ·) h.accounted.callbacks
    · show Ordered s'.children
      rw [hchildren]
      exact hordered
    · show ∀ c ∈ s'.children, c.Sound
      rw [hchildren]
      exact hsound

theorem Sound.reapHead {ci : Child} {rest : List Child} {w : Wait} (h : Sound s) (hs : s.children = ci :: rest)
    (hpid : ci.pid = w.pid) : Yields False (MasterServer.reapOne s w) fun p => Sound p.1 := by
  refine h.reapOne fun ci' hfind hserver _ _ _ _ c hc himageid hptype => ?_
  have hfind' : (s.children.find? fun c => c.pid = w.pid) = some ci := by
    rw [hs, List.find?_cons_of_pos (by simpa using hpid)]
  have hunlink : (s.unlink w.pid).children = rest := by
    show s.children.eraseP (fun c => c.pid = w.pid) = rest
    rw [hs, eraseP_cons_of_pos (by simpa using hpid)]
  rw [hfind'] at hfind
  obtain rfl := some.inj hfind
  have hordered := h.ordered
  rw [hs] at hordered
  rw [hunlink] at hc
  exact (pairwise_cons.mp hordered).1 c hc himageid.symm (hserver.trans hptype.symm)

theorem Sound.setPort {id port : Nat} (h : Sound s) : Sound (setPort s id port) := by
  have hids : (MasterServer.setPort s id port).children.map (·.id) = s.children.map (·.id) := by
    show (s.children.map _).map _ = _
    rw [List.map_map]
    refine map_congr_left fun c _ => ?_
    show (if c.id = id then _ else c).id = c.id
    split <;> rfl
  refine ⟨⟨h.accounted.count.trans (length_map _).symm, ?_, h.accounted.callbacks⟩, ?_, ?_⟩
  · show (((MasterServer.setPort s id port).children ++ s.gone).map (·.id)).Perm (List.range s.next)
    rw [map_append, hids, ← map_append]
    exact h.accounted.ledger
  · refine pairwise_map.mpr (h.ordered.imp fun {c c'} hfollows => ?_)
    unfold Follows
    split <;> split <;> exact hfollows
  · intro c' hc'
    obtain ⟨c, hc, rfl⟩ := mem_map.mp hc'
    have hsound := h.sound c hc
    split <;> exact ⟨hsound.client, hsound.upload, hsound.unicast, hsound.one⟩

theorem kept_sound : Kept cfg False (available cfg) Sound where
  ordered h := .inr h.ordered
  counted h := .inr h.accounted.count
  extra h hc hptype := .inr ((h.sound _ hc).client hptype)
  unicast h hc hptype := (h.sound _ hc).unicast hptype
  masks h := .inr h
  ask _ h := .inr h
  tell h _ _ _ := ⟨⟨h.accounted.count, h.accounted.ledger, h.accounted.callbacks⟩, h.ordered, h.sound⟩
  port h := h.setPort
  client {s s' ci} h hstarted hrule _ _ _ hptype hextra := by
    refine h.start hstarted ⟨fun _ => hextra, ?_, ?_, fun hne => absurd hptype hne⟩ (hptype ▸ hrule)
    · rw [hptype]
      nofun
    · rw [hptype]
      nofun
  server {s s' ci methods} h hstarted hrule _ _ hmethod hptype _ := by
    refine h.start hstarted ⟨?_, ?_, ?_, fun _ => serverMethod_again hmethod⟩ (hptype ▸ hrule)
    · rw [hptype]
      nofun
    · rw [hptype]
      nofun
    · rw [hptype]
      nofun
  uploader {s s' ci} h hstarted _ _ hup hmethod hptype hextra := by
    refine h.start hstarted ⟨?_, fun _ => hextra, fun _ => hmethod, fun _ => by rw [hmethod]; rfl⟩ ?_
    · rw [hptype]
      nofun
    · intro c hc himageid hptype'
      have hzero := noMatch_iff.mp hup c hc (hptype'.trans hptype) himageid
      rw [(h.sound c hc).unicast (hptype'.trans hptype)] at hzero
      nomatch hzero
  reap h hs hpid _ := h.reapHead hs hpid

/-! ## Section 2: Runs -/

/-- The ids of requests fit, requests follow the rules where they ask the parent or start a child,
    and a server that is restarted may be put before the others of its image. -/
def AvailableOk (cfg : Config) (s : Master) : Event → Prop
  | .request msg env =>
    (msg.IsGet → NameFits cfg msg.getrequest.idlen msg.getrequest.imageid (msg.getrequest.wanted cfg ≠ 0) ∧
      GetOk cfg (available cfg) s msg.getrequest env) ∧
    (msg.IsPut → NameFits cfg msg.putrequest.idlen msg.putrequest.imageid True)
  | .exit w => ∀ ci, (s.children.find? fun c => c.pid = w.pid) = some ci → ci.ptype = .server →
    0 < ci.retries → WEXITSTATUS w.status = EADDRINUSE → w.address.isSome = true → w.fork.isSome = true →
      MayPrecede (s.unlink w.pid) ci.imageid .server ci.method

theorem Sound.step (h : Sound s) {e : Event} (hok : AvailableOk cfg s e) : Yields False (step cfg s e) Sound := by
  cases e with
  | request msg env =>
    exact handleRequest_yields kept_sound h (fun hget => ⟨.inr (hok.1 hget).1, (hok.1 hget).2⟩)
      fun hput => .inr (hok.2 hput)
  | exit w =>
    show Yields False (reap s w) _
    unfold reap
    split
    · rename_i hzero
      have hempty : s.children = [] := length_eq_zero_iff.mp (h.accounted.count.symm.trans hzero)
      rw [hempty]
      exact h
    · exact (h.reapOne hok).bind fun p hp => hp

theorem sound_init (files : ImageId → Option File) : Sound (.init files) where
  accounted := ⟨rfl, .nil, rfl⟩
  ordered := .nil
  sound := nofun

/-- A run that keeps to the rules gets to its end, and its children are accounted for. -/
theorem master_available {files : ImageId → Option File} {es : List Event}
    (hok : Machine.Meets (machine cfg) (AvailableOk cfg) (.init files) es) :
    ∃ s, Machine.run (machine cfg) (.init files) es = some s ∧ Accounted s := by
  obtain ⟨s, hrun, hs⟩ := Machine.run_total Sound (fun s e hs hok => by
    obtain ⟨s', hstep, hs'⟩ := (hs.step hok).returns id
    exact ⟨s', by rw [machine, hstep]; rfl, hs'⟩) (sound_init files) hok
  exact ⟨s, hrun, hs.accounted⟩

/-! ## Section 3: Servers in the way of each other -/

/-- Two hosts get the image by one method each, and a third one would take either. -/
def methodsRun : List Event :=
  [.request (getImage MS_METHOD_UNICAST false) { anEnvironment with fork := some 100 },
    .request (getImage MS_METHOD_MULTICAST false) { anEnvironment with fork := some 101 },
    .request (getImage 3 true) anEnvironment]

/-- A request with an image id that is longer than the message. -/
def longId : Message := { getImage 3 true with getrequest := ⟨0, 3, true, 300, Vector.replicate _ 0x61⟩ }

/-- The master server stops if it finds a unicast server behind a multicast one, and writes behind
    its buffer if it is told to. -/
theorem master_not_available :
    ¬(∀ (cfg : Config) (files : ImageId → Option File) (es : List Event),
      ∃ s, Machine.run (machine cfg) (.init files) es = some s ∧ Accounted s) ∧
    Machine.run (machine rootConfig) (.init oldFiles) [.request longId anEnvironment] = none := by
  have hstop : (Machine.run (machine rootConfig) (.init oldFiles) methodsRun).isNone = true := by
    decide +kernel
  have hlong : (Machine.run (machine rootConfig) (.init oldFiles) [.request longId anEnvironment]).isNone = true := by
    decide +kernel
  refine ⟨fun h => ?_, isNone_iff_eq_none.mp hlong⟩
  obtain ⟨s, hrun, -⟩ := h rootConfig oldFiles methodsRun
  rw [hrun] at hstop
  nomatch hstop

theorem master_available_upload :
    ∃ s, Machine.run (machine rootConfig) (.init oldFiles) uploadRun = some s ∧ Accounted s := by
  refine @master_available rootConfig oldFiles uploadRun ⟨⟨fun hget => ?_, fun _ => ⟨by decide, ?_⟩⟩, fun s hs => ?_⟩
  · exact absurd hget.2 (by decide)
  · intro _ _ h
    nomatch h
  · refine ⟨fun ci _ _ _ hstatus => ?_, fun _ _ => trivial⟩
    exact absurd hstatus (by decide)

end Emulab.Frisbee.MasterServer
