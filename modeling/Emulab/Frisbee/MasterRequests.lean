import Emulab.Frisbee.MasterServer

/-! # What the requests of the master server keep

  A request adds at most one child to the list, and only after other children of the
  image have been looked for. What every such step keeps is kept by the requests. -/

namespace Emulab.Frisbee.MasterServer

open Outcome Option
open List hiding Vector

variable {cfg : Config} {m : Prop} {s : Master}

/-! ## Section 1: Finding a child -/

/-- A child further down in the list takes the place of the first one. -/
def Follows (first later : Child) : Prop :=
  first.imageid = later.imageid → first.ptype = later.ptype →
    later.method = MS_METHOD_BROADCAST ∨
      later.method = MS_METHOD_MULTICAST ∧ first.method = MS_METHOD_UNICAST

/-- No children of one image are in the way of each other. -/
def Ordered (children : List Child) : Prop := children.Pairwise Follows

/-- No child is found. -/
def NoMatch (children : List Child) (imageid : ImageId) (ptype : PType) (methods : Methods) : Prop :=
  ∀ c ∈ children, c.matches imageid ptype methods = false

/-- The methods are among those of the master server. -/
def Supported (cfg : Config) (methods : Methods) : Prop := methods &&& ~~~cfg.onlymethods = 0

variable {methods : Methods} {ci : Child} {imageid : ImageId} {ptype : PType}

theorem matches_iff :
    ci.matches imageid ptype methods = true ↔
      ci.ptype = ptype ∧ ci.method &&& methods ≠ 0 ∧ ci.imageid = imageid := by
  simp [Child.matches, and_assoc]

theorem noMatch_iff {children : List Child} :
    NoMatch children imageid ptype methods ↔
      ∀ c ∈ children, c.ptype = ptype → c.imageid = imageid → c.method &&& methods = 0 := by
  unfold NoMatch
  refine forall₂_congr fun c _ => ?_
  rw [Bool.eq_false_iff, Ne, matches_iff]
  tauto

theorem supported_and (methods : Methods) (cfg : Config) : Supported cfg (methods &&& cfg.onlymethods) := by
  unfold Supported
  rw [BitVec.and_assoc]
  simp

theorem supported_left {a b : Methods} (h : Supported cfg a) : Supported cfg (a &&& b) := by
  unfold Supported at h ⊢
  rw [BitVec.and_assoc, BitVec.and_comm b, ← BitVec.and_assoc, h]
  simp

theorem findLoop_yields (children : List Child) (bestci : Option Child)
    (h : m ∨ Ordered children ∧ ∀ best, bestci = some best →
      best.imageid = imageid ∧ best.ptype = ptype ∧ ∀ c ∈ children, Follows best c) :
    Yields m (findLoop imageid ptype methods bestci children) fun found =>
      (∀ ci, found = some ci → bestci = some ci ∨ ci ∈ children ∧ ci.matches imageid ptype methods = true) ∧
        (found = none → bestci = none ∧ NoMatch children imageid ptype methods) := by
  induction children generalizing bestci with
  | nil => exact ⟨fun ci hci => .inl hci, fun hnone => ⟨hnone, by simp [NoMatch]⟩⟩
  | cons ci rest ih =>
    unfold findLoop
    by_cases hmatch : ci.matches imageid ptype methods = true
    · rw [if_pos hmatch]
      obtain ⟨hptype, -, himageid⟩ := matches_iff.mp hmatch
      have hbetter : Yields m (better bestci ci) fun found => found = some ci := by
        unfold better
        cases bestci with
        | none => exact rfl
        | some best =>
          dsimp only
          split
          · exact rfl
          split
          · exact rfl
          · rename_i hb hu
            rcases h with h | ⟨-, h⟩
            · exact h
            obtain ⟨hbi, hbp, hfollows⟩ := h best rfl
            rcases hfollows ci (by simp) (hbi.trans himageid.symm) (hbp.trans hptype.symm) with hm | hm
            · exact absurd hm hb
            · exact absurd hm hu
      refine hbetter.bind fun found hfound => ?_
      subst hfound
      refine (ih (some ci) ?_).imp fun found hfound => ⟨fun c hc => ?_, fun hnone => ?_⟩
      · refine h.imp_right ?_
        rintro ⟨hord, -⟩
        obtain ⟨hci, hrest⟩ := pairwise_cons.mp hord
        refine ⟨hrest, fun best hbest => ?_⟩
        obtain rfl := some.inj hbest
        exact ⟨himageid, hptype, hci⟩
      · rcases hfound.1 c hc with heq | ⟨hmem, hc⟩
        · obtain rfl := some.inj heq
          exact .inr ⟨by simp, hmatch⟩
        · exact .inr ⟨by simp [hmem], hc⟩
      · exact nomatch (hfound.2 hnone).1
    · rw [if_neg hmatch]
      refine (ih bestci ?_).imp fun found hfound => ⟨fun c hc => ?_, fun hnone => ?_⟩
      · refine h.imp_right ?_
        rintro ⟨hord, hbest⟩
        refine ⟨(pairwise_cons.mp hord).2, fun best hb => ?_⟩
        obtain ⟨hi, hp, hfollows⟩ := hbest best hb
        exact ⟨hi, hp, fun c hc => hfollows c (by simp [hc])⟩
      · rcases hfound.1 c hc with heq | ⟨hmem, hc⟩
        · exact .inl heq
        · exact .inr ⟨by simp [hmem], hc⟩
      · obtain ⟨hnone, hrest⟩ := hfound.2 hnone
        refine ⟨hnone, fun c hc => ?_⟩
        rcases mem_cons.mp hc with rfl | hc
        · exact Bool.eq_false_iff.mpr hmatch
        · exact hrest c hc

theorem findchild_yields {children : List Child}
    (hord : m ∨ Ordered children) (hmethods : m ∨ ptype = .uploader ∨ Supported cfg methods) :
    Yields m (findchild cfg children imageid ptype methods) fun found =>
      (∀ ci, found = some ci → ci ∈ children ∧ ci.matches imageid ptype methods = true) ∧
        (found = none → NoMatch children imageid ptype methods) ∧
        (ptype = .uploader ∨ Supported cfg methods) := by
  unfold findchild
  have hassert : Yields m (assert (ptype = .uploader || methods &&& ~~~cfg.onlymethods = 0)) fun _ =>
      ptype = .uploader ∨ Supported cfg methods := by
    unfold assert
    split
    · rename_i h
      simpa [Supported] using h
    · rcases hmethods with h | h
      · exact h
      · simp_all [Supported]
  refine hassert.bind fun _ hsupported => ?_
  refine (findLoop_yields children none ?_).imp fun found hfound => ⟨fun ci hci => ?_, fun hnone => ?_, hsupported⟩
  · exact hord.imp_right fun h => ⟨h, by simp⟩
  · simpa using hfound.1 ci hci
  · exact (hfound.2 hnone).2

/-! ## Section 2: Starting a child -/

@[simp] theorem children_add (ci : Child) : (s.add ci).children = ci :: s.children := rfl

@[simp] theorem nchildren_add (ci : Child) : (s.add ci).nchildren = s.nchildren + 1 := rfl

@[simp] theorem files_add (ci : Child) : (s.add ci).files = s.files := rfl

/-- A new child has been put into the list. -/
structure Started (s s' : Master) (ci : Child) : Prop where
  add : s' = ({ s with next := s.next + 1 } : Master).add ci
  id : ci.id = s.next
  pid : ∀ c ∈ s.children, c.pid ≠ ci.pid

variable {fork : Option Nat}

theorem startchild_eq {s' : Master} (h : startchild s ci fork = some s') :
    ∃ pid, fork = some pid ∧ (∀ c ∈ s.children, c.pid ≠ pid) ∧ s' = s.add { ci with pid := pid } := by
  unfold startchild at h
  cases fork with
  | none => nomatch h
  | some pid =>
    dsimp only at h
    split at h
    · nomatch h
    · rename_i hany
      exact ⟨pid, rfl, by simpa using hany, (some.inj h).symm⟩

theorem started_of_startchild {started : Master × Child} (hid : ci.id = s.next) (hpid : ci.pid = fork.getD 0)
    (h : (startchild { s with next := s.next + 1 } ci fork).map (fun s => (s, ci)) = some started) :
    started.2 = ci ∧ Started s started.1 ci ∧ fork = some ci.pid := by
  obtain ⟨s', hs', rfl⟩ := map_eq_some_iff.mp h
  obtain ⟨pid, rfl, hfresh, rfl⟩ := startchild_eq hs'
  have heq : { ci with pid := pid } = ci := by
    cases ci
    simp_all
  have hpid : ci.pid = pid := hpid
  rw [heq]
  exact ⟨rfl, ⟨rfl, hid, fun c hc => hpid ▸ hfresh c hc⟩, by rw [hpid]⟩

theorem getServerAddress_eq {methods method : Methods} {first : Bool} {addr : Nat} {index : Option Address}
    {a : Address} (h : getServerAddress methods first addr index = some (a, method)) :
    index.isSome = true ∧ serverMethod methods = some method := by
  unfold getServerAddress at h
  obtain ⟨a', rfl, h⟩ := bind_eq_some_iff.mp h
  obtain ⟨method', hmethod, heq⟩ := map_eq_some_iff.mp h
  cases heq
  exact ⟨rfl, hmethod⟩

theorem assert_isNone_yields {found : Option Child}
    (hfound : ∀ ci, found = some ci → ci ∈ s.children ∧ ci.matches imageid ptype methods = true)
    (hnone : m ∨ NoMatch s.children imageid ptype methods) :
    Yields m (assert found.isNone) fun _ => found = none := by
  unfold assert
  cases found with
  | none => exact rfl
  | some ci =>
    obtain ⟨hmem, hmatch⟩ := hfound ci rfl
    rcases hnone with h | h
    · exact h
    · rw [h ci hmem] at hmatch
      nomatch hmatch

theorem startserver_yields {ii : ImageInfo} {meaddr youaddr : Nat}
    {index : Option Address} (hord : m ∨ Ordered s.children) (hmethods : m ∨ Supported cfg methods)
    (hnone : m ∨ NoMatch s.children ii.imageid .server methods) :
    Yields m (startserver cfg s ii meaddr youaddr methods index fork) fun started =>
      ∀ s' ci, started = some (s', ci) → Started s s' ci ∧ index.isSome = true ∧ fork.isSome = true ∧
        serverMethod methods = some ci.method ∧ ci.ptype = .server ∧ ci.imageid = ii.imageid ∧
        ci.reads = s.files ii.imageid ∧ ci.extra = none := by
  unfold startserver
  refine (findchild_yields hord (hmethods.imp_right .inr)).bind fun found hfound => ?_
  refine (assert_isNone_yields hfound.1 hnone).bind fun _ _ => ?_
  split
  · exact fun s' ci h => nomatch h
  · rename_i a method haddress
    obtain ⟨hindex, hmethod⟩ := getServerAddress_eq haddress
    intro s' ci h
    obtain ⟨heq, hstarted, hfork⟩ := started_of_startchild rfl rfl h
    obtain rfl : ci = _ := heq
    exact ⟨hstarted, hindex, by rw [hfork]; rfl, hmethod, rfl, rfl, rfl, rfl⟩

theorem startclient_yields {ii : ImageInfo} {servaddr addr port : Nat} {extra : Extra}
    (hord : m ∨ Ordered s.children) (hmethods : m ∨ Supported cfg methods)
    (hnone : m ∨ NoMatch s.children ii.imageid .client methods) :
    Yields m (startclient cfg s ii servaddr addr port methods extra fork) fun started =>
      ∀ s' ci, started = some (s', ci) → Started s s' ci ∧ fork.isSome = true ∧ Supported cfg methods ∧
        NoMatch s.children ii.imageid .client methods ∧ ci.method = methods ∧ ci.ptype = .client ∧
        ci.imageid = ii.imageid ∧ ci.extra = some extra ∧ ci.retries = 0 := by
  unfold startclient
  refine (findchild_yields hord (hmethods.imp_right .inr)).bind ?_
  rintro found ⟨hfound, hmissing, hsupported⟩
  refine (assert_isNone_yields hfound hnone).bind fun _ hfree => ?_
  intro s' ci h
  obtain ⟨heq, hstarted, hfork⟩ := started_of_startchild rfl rfl h
  obtain rfl : ci = _ := heq
  exact ⟨hstarted, by rw [hfork]; rfl, hsupported.resolve_left nofun, hmissing hfree, rfl, rfl, rfl, rfl, rfl⟩

theorem startuploader_yields {ii : ImageInfo} {meaddr youaddr : Nat} {mtime : Int}
    {index : Option Address} (hord : m ∨ Ordered s.children)
    (hnone : m ∨ NoMatch s.children ii.imageid .uploader MS_METHOD_ANY) :
    Yields m (startuploader cfg s ii meaddr youaddr mtime index fork) fun started =>
      ∀ s' ci, started = some (s', ci) → Started s s' ci ∧ ci.method = MS_METHOD_UNICAST ∧
        ci.ptype = .uploader ∧ ci.imageid = ii.imageid ∧
        ci.extra = some (.upload ii.put_oldversion mtime) := by
  unfold startuploader
  refine (findchild_yields hord (.inr (.inl rfl))).bind fun found hfound => ?_
  refine (assert_isNone_yields hfound.1 hnone).bind fun _ _ => ?_
  split
  · exact fun s' ci h => nomatch h
  · rename_i a method haddress
    obtain ⟨-, hmethod⟩ := getServerAddress_eq haddress
    intro s' ci h
    obtain ⟨heq, hstarted, -⟩ := started_of_startchild rfl rfl h
    obtain rfl : ci = _ := heq
    exact ⟨hstarted, (some.inj hmethod).symm, rfl, rfl, rfl⟩

/-! ## Section 3: Reaping a child -/

@[simp] theorem files_unlink (pid : Nat) : (s.unlink pid).files = s.files := rfl

@[simp] theorem nchildren_unlink (pid : Nat) : (s.unlink pid).nchildren = s.nchildren - 1 := rfl

@[simp] theorem files_bury (ci : Child) : (s.bury ci).files = s.files := rfl

theorem unlink_split {pid : Nat} (h : (s.children.find? fun c => c.pid = pid) = some ci) :
    ci.pid = pid ∧ ∃ before after, s.children = before ++ ci :: after ∧
      (s.unlink pid).children = before ++ after := by
  obtain ⟨hpid, before, after, heq, hbefore⟩ := List.find?_eq_some_iff_append.mp h
  have hpid : ci.pid = pid := by simpa using hpid
  refine ⟨hpid, before, after, heq, ?_⟩
  show s.children.eraseP (fun c => c.pid = pid) = before ++ after
  rw [heq, eraseP_append_right _ (by simpa using hbefore), eraseP_cons_of_pos (by simpa using hpid)]

theorem restart_eq {w : Wait} {s' : Master} (h : restart s ci w = some s') :
    ∃ a method pid, w.fork = some pid ∧ w.address.isSome = true ∧ 0 < ci.retries ∧
      WEXITSTATUS w.status = EADDRINUSE ∧ ci.ptype ≠ .client ∧ serverMethod ci.method = some method ∧
      (∀ c ∈ s.children, c.pid ≠ pid) ∧ s' = s.add { ci.retry s a method with pid := pid } := by
  unfold restart at h
  split at h
  · rename_i hretry
    obtain ⟨hretries, hstatus, hptype⟩ := hretry
    split at h
    · nomatch h
    · rename_i a method haddress
      obtain ⟨hindex, hmethod⟩ := getServerAddress_eq haddress
      obtain ⟨pid, hfork, hfresh, rfl⟩ := startchild_eq h
      exact ⟨a, method, pid, hfork, hindex, hretries, hstatus, hptype, hmethod, hfresh, rfl⟩
  · nomatch h

variable {rest : List Child}

/-- What becomes of the newest child when it is waited for. -/
theorem reapOne_head {w : Wait} {s' : Master} {reaped : Reaped}
    (hs : s.children = ci :: rest) (hw : ci.pid = w.pid) (h : reapOne s w = .ok (s', reaped)) :
    (ci.ptype = .server → s'.files = s.files) ∧
      ((∃ ci' pid, reaped = .restarted pid ∧ s'.children = ci' :: rest ∧ ci'.pid = pid ∧ ci'.id = ci.id ∧
        ci'.ptype = ci.ptype ∧ ci'.imageid = ci.imageid) ∨ reaped = .finished) := by
  have hfind : (s.children.find? fun c => c.pid = w.pid) = some ci := by
    rw [hs, List.find?_cons_of_pos (by simpa using hw)]
  have hunlink : (s.unlink w.pid).children = rest := by
    show s.children.eraseP (fun c => c.pid = w.pid) = rest
    rw [hs, eraseP_cons_of_pos (by simpa using hw)]
  unfold reapOne at h
  rw [hfind] at h
  dsimp only at h
  split at h
  · rename_i s₁ hrestart
    obtain ⟨a, method, pid, hfork, -, -, -, -, -, -, rfl⟩ := restart_eq hrestart
    cases h
    refine ⟨fun _ => rfl, .inl ⟨{ ci.retry (s.unlink w.pid) a method with pid := pid }, pid, ?_, ?_, rfl, rfl, rfl, rfl⟩⟩
    · rw [hfork]
      rfl
    · rw [children_add, hunlink]
  · cases hdone : done (s.unlink w.pid) ci w with
    | error stop =>
      rw [hdone] at h
      nomatch h
    | ok s₁ =>
      rw [hdone] at h
      cases h
      refine ⟨fun hserver => ?_, .inr rfl⟩
      unfold done at hdone
      rw [hserver] at hdone
      cases hdone
      rfl

theorem reapPid_yields {I : Master → Prop}
    (hreap : ∀ {s : Master} {ci : Child} {rest : List Child} {w : Wait}, I s → s.children = ci :: rest →
      ci.pid = w.pid → ci.ptype ≠ .client → Yields m (reapOne s w) fun p => I p.1)
    (hI : I s) (hs : s.children = ci :: rest) (hptype : ci.ptype ≠ .client) (waits : List Wait) :
    Yields m (reapPid s ci.pid waits) fun p => I p.1 ∧ (ci.ptype = .server → p.1.files = s.files) ∧
      (p.2 = false → ∃ ci', p.1.children = ci' :: rest ∧ ci'.id = ci.id ∧ ci'.ptype = ci.ptype ∧
        ci'.imageid = ci.imageid) := by
  have hstay : I s ∧ (ci.ptype = .server → s.files = s.files) ∧
      (false = false → ∃ ci', s.children = ci' :: rest ∧ ci'.id = ci.id ∧ ci'.ptype = ci.ptype ∧
        ci'.imageid = ci.imageid) :=
    ⟨hI, fun _ => rfl, fun _ => ⟨ci, hs, rfl, rfl, rfl⟩⟩
  induction waits generalizing s ci with
  | nil => exact hstay
  | cons w waits ih =>
    unfold reapPid
    split
    · exact hstay
    rename_i hpid
    have hpid : ci.pid = w.pid := (not_not.mp hpid).symm
    refine (hreap hI hs hpid hptype).and_ok.bind ?_
    rintro ⟨s', reaped⟩ ⟨hI', hok⟩
    obtain ⟨hfiles, hreaped⟩ := reapOne_head hs hpid hok
    rcases hreaped with ⟨ci', pid, rfl, hs', rfl, hid, hptype', himageid⟩ | rfl
    · have hptype'' : ci'.ptype ≠ .client := by rwa [hptype']
      refine (ih hI' hs' hptype'' ⟨hI', fun _ => rfl, fun _ => ⟨ci', hs', rfl, rfl, rfl⟩⟩).imp ?_
      rintro ⟨s'', exited⟩ ⟨hI'', hfiles', hrest⟩
      refine ⟨hI'', fun hserver => (hfiles' (hptype'.trans hserver)).trans (hfiles hserver), fun hexited => ?_⟩
      obtain ⟨ci'', hs'', hid', hp', hi'⟩ := hrest hexited
      exact ⟨ci'', hs'', hid'.trans hid, hp'.trans hptype', hi'.trans himageid⟩
    · exact ⟨hI', hfiles, nofun⟩

@[simp] theorem files_setPort (id port : Nat) : (setPort s id port).files = s.files := rfl

theorem child_head {id : Nat} (hs : s.children = ci :: rest) (hid : ci.id = id) : s.child id = .ok ci := by
  unfold Master.child
  rw [hs, List.find?_cons_of_pos (by simpa using hid)]

variable {env : Environment}

theorem settle_yields {I : Master → Prop} (hcount : I s → m ∨ s.nchildren = s.children.length)
    (hreap : ∀ {s : Master} {ci : Child} {rest : List Child} {w : Wait}, I s → s.children = ci :: rest →
      ci.pid = w.pid → ci.ptype ≠ .client → Yields m (reapOne s w) fun p => I p.1)
    (hport : ∀ {s : Master} {id port : Nat}, I s → I (setPort s id port))
    (hI : I s) (hs : s.children = ci :: rest) (hptype : ci.ptype ≠ .client) :
    Yields m (settle s ci env) fun p => I p.1 ∧ (ci.ptype = .server → p.1.files = s.files) ∧
      ∀ ci', p.2 = some ci' → ci' ∈ p.1.children ∧ ci'.ptype = ci.ptype ∧ ci'.imageid = ci.imageid := by
  have hreaped : Yields m (reapchild s ci.pid env.waits) fun p =>
      I p.1 ∧ (ci.ptype = .server → p.1.files = s.files) ∧
      (p.2 = false → ∃ ci', p.1.children = ci' :: rest ∧ ci'.id = ci.id ∧ ci'.ptype = ci.ptype ∧
        ci'.imageid = ci.imageid) := by
    unfold reapchild
    split
    · rename_i hzero
      have hassert : Yields m (assert s.children.isEmpty) fun _ => False := by
        rw [hs]
        rcases hcount hI with h | h
        · exact h
        · rw [hs, hzero] at h
          nomatch h
      exact hassert.bind fun _ h => h.elim
    · exact reapPid_yields hreap hI hs hptype env.waits
  unfold settle
  refine hreaped.bind ?_
  rintro ⟨s', exited⟩ ⟨hI', hfiles, hrest⟩
  dsimp only at hI' hfiles hrest ⊢
  split
  · exact ⟨hI', hfiles, nofun⟩
  rename_i hexited
  obtain ⟨ci', hs', hid, hptype', himageid⟩ := hrest (Bool.eq_false_iff.mpr hexited)
  have hchild : Yields m (s'.child ci.id) (ci' = ·) := by
    rw [child_head hs' hid]
    exact rfl
  refine hchild.bind ?_
  rintro _ rfl
  split
  · exact ⟨hI', hfiles, nofun⟩
  · rename_i s'' haddr
    have hset : s'' = s' ∨ ∃ port, s'' = setPort s' ci'.id port := by
      unfold getaddrchild at haddr
      split at haddr
      · split at haddr
        · split at haddr
          · exact .inr ⟨_, (some.inj haddr).symm⟩
          · nomatch haddr
        · nomatch haddr
      · exact .inl (some.inj haddr).symm
    rcases hset with rfl | ⟨port, rfl⟩
    · rw [child_head hs' rfl]
      refine ⟨hI', hfiles, fun c hc => ?_⟩
      obtain rfl := some.inj hc
      exact ⟨by rw [hs']; exact mem_cons_self, hptype', himageid⟩
    · have hs'' : (setPort s' ci'.id port).children =
          { ci' with loport := port, hiport := port } :: rest.map fun c =>
            if c.id = ci'.id then { c with loport := port, hiport := port } else c := by
        show s'.children.map _ = _
        rw [hs', map_cons, if_pos rfl]
      rw [child_head hs'' rfl]
      refine ⟨hport hI', hfiles, fun c hc => ?_⟩
      obtain rfl := some.inj hc
      exact ⟨by rw [hs'']; exact mem_cons_self, hptype', himageid⟩

/-! ## Section 4: What a step keeps -/

/-- What the steps that add a child ask for: of the methods that the parent is asked for, of
    the method that the parent names, and of a client and a server that are started. -/
structure Rules where
  masks : ImageInfo → Prop
  ask : Master → ImageId → Methods → Prop
  client : Master → ImageId → Methods → Prop
  server : Master → ImageId → Methods → Prop

/-- The steps of a request keep a property of the master server, which rules out that they
    fail unless `m` holds. -/
structure Kept (cfg : Config) (m : Prop) (R : Rules) (I : Master → Prop) : Prop where
  ordered : ∀ {s}, I s → m ∨ Ordered s.children
  counted : ∀ {s}, I s → m ∨ s.nchildren = s.children.length
  extra : ∀ {s c}, I s → c ∈ s.children → c.ptype = .client →
    m ∨ ∃ sig size, c.extra = some (.client sig size)
  unicast : ∀ {s c}, I s → c ∈ s.children → c.ptype = .uploader → c.method = MS_METHOD_UNICAST
  masks : ∀ {ii}, R.masks ii → m ∨ Supported cfg (fetchMethods cfg ii)
  ask : ∀ {s imageid method}, I s → R.ask s imageid method →
    m ∨ Supported cfg method ∧ NoMatch s.children imageid .client method
  tell : ∀ {s ci f}, I s → ci ∈ s.children → ci.ptype = .server → s.files ci.imageid = some f →
    I { s with told := ⟨ci.reads, f.size, some f.mtime⟩ :: s.told }
  port : ∀ {s id port}, I s → I (setPort s id port)
  client : ∀ {s s' ci}, I s → Started s s' ci → R.client s ci.imageid ci.method →
    NoMatch s.children ci.imageid .uploader MS_METHOD_UNICAST → Supported cfg ci.method →
    NoMatch s.children ci.imageid .client ci.method → ci.ptype = .client →
    (∃ sig size, ci.extra = some (.client sig size)) → I s'
  server : ∀ {s s' ci methods}, I s → Started s s' ci → R.server s ci.imageid ci.method →
    NoMatch s.children ci.imageid .uploader MS_METHOD_UNICAST → Supported cfg methods →
    serverMethod methods = some ci.method → ci.ptype = .server → ci.reads = s.files ci.imageid → I s'
  uploader : ∀ {s s' ci}, I s → Started s s' ci →
    NoMatch s.children ci.imageid .server cfg.onlymethods →
    NoMatch s.children ci.imageid .client cfg.onlymethods →
    NoMatch s.children ci.imageid .uploader MS_METHOD_UNICAST → ci.method = MS_METHOD_UNICAST →
    ci.ptype = .uploader → (∃ realname mtime, ci.extra = some (.upload realname mtime)) → I s'
  reap : ∀ {s : Master} {ci : Child} {rest : List Child} {w : Wait}, I s → s.children = ci :: rest →
    ci.pid = w.pid → ci.ptype ≠ .client → Yields m (reapOne s w) fun p => I p.1

/-- The request gets to the image, and this is what there is of it. -/
def Locates (cfg : Config) (s : Master) (r : GetRequest) (env : Environment) (l : Located) : Prop :=
  ∃ ii, accessRequest cfg s r env = .ok (.inr ii) ∧ locate cfg s r env ii = .ok (.inr l)

/-- A GET request follows the rules where it gets to the steps that they are about. -/
structure GetOk (cfg : Config) (R : Rules) (s : Master) (r : GetRequest) (env : Environment) : Prop where
  /-- The parent is asked for the status. -/
  status : ∀ ii, accessRequest cfg s r env = .ok (.inr ii) → localCopy s env ii = none →
    cfg.fetchfromabove = true → cfg.mirrormode = false → fetchMethods cfg ii ≠ 0 → R.masks ii
  /-- The parent is asked for the image. -/
  parent : ∀ l, Locates cfg s r env l → l.getfromparent = true → fetchMethods cfg l.ii ≠ 0 → R.masks l.ii
  /-- The parent has an answer, and there is no client for the image. -/
  client : ∀ l, Locates cfg s r env l → l.getfromparent = true → fetchMethods cfg l.ii ≠ 0 →
    NoMatch s.children l.ii.imageid .client (fetchMethods cfg l.ii) →
    ∀ answer, env.parentGet = some answer → answer.error = 0 →
      R.ask s l.ii.imageid answer.method ∧
        (env.clientFork.isSome = true → R.client s l.ii.imageid answer.method)
  /-- The local copy is used, and there is no server for it. -/
  server : ∀ l, Locates cfg s r env l → fetch cfg s r env l = .ok (s, none) → r.status = false →
    ¬(env.sip = INADDR_LOOPBACK ∧ cfg.ifaceip = INADDR_ANY) →
    env.index.isSome = true → env.fork.isSome = true →
    NoMatch s.children l.ii.imageid .server (r.wanted cfg &&& l.ii.get_methods) →
    ∀ method, serverMethod (r.wanted cfg &&& l.ii.get_methods) = some method →
      R.server s l.ii.imageid method

/-- The image id of a request fits into the buffer, and so does its canonical form if it is used. -/
def NameFits (cfg : Config) (idlen : Nat) (imageid : Vector (BitVec 8) MS_MAXIDLEN) (used : Prop) : Prop :=
  idlen ≤ MS_MAXIDLEN ∧ (used → ∀ cimageid,
    cfg.canonicalize ((imageid.toList.take idlen).takeWhile (· ≠ 0)) = some cimageid →
      cimageid.length ≤ MS_MAXIDLEN)

variable {R : Rules} {I : Master → Prop}

theorem copyId_yields {idlen : Nat} {imageid : Vector (BitVec 8) MS_MAXIDLEN} (h : m ∨ idlen ≤ MS_MAXIDLEN) :
    Yields m (copyId idlen imageid) (· = (imageid.toList.take idlen).takeWhile (· ≠ 0)) := by
  unfold copyId
  split
  · rename_i hlong
    exact h.resolve_right (Nat.not_le.mpr hlong)
  · rfl

theorem canonicalId_yields
    (h : m ∨ ∀ cimageid, cfg.canonicalize imageid = some cimageid → cimageid.length ≤ MS_MAXIDLEN) :
    Yields m (canonicalId cfg imageid) fun _ => True := by
  unfold canonicalId
  split
  · trivial
  · rename_i cimageid hcimageid
    split
    · rename_i hlong
      exact h.resolve_right fun h => Nat.not_le.mpr hlong (h cimageid hcimageid)
    · trivial

theorem imageInfo_flags (s : Master) (a : Access) :
    (imageInfo s a).flags &&& (CONFIG_PATH_ISFILE ||| CONFIG_PATH_ISSIGFILE) ≠ 0 ∧
      ((imageInfo s a).sig.isNone = false → (imageInfo s a).flags &&& CONFIG_SIG_ISMTIME ≠ 0) ∧
      ((imageInfo s a).flags &&& CONFIG_PATH_EXISTS ≠ 0 → a.found = true ∧ (s.files a.imageid).isSome = true) := by
  unfold imageInfo
  dsimp only
  cases a.issigfile <;> cases a.found <;> cases s.files a.imageid <;>
    simp [CONFIG_PATH_ISFILE, CONFIG_PATH_ISSIGFILE, CONFIG_PATH_EXISTS, CONFIG_SIG_ISMTIME]

theorem localCopy_eq {a : Access} {file : File} (h : localCopy s env (imageInfo s a) = some file) :
    s.files a.imageid = some file ∧ (imageInfo s a).sig = some file.mtime := by
  unfold localCopy at h
  split at h
  · rename_i hexists
    have hfound := ((imageInfo_flags s a).2.2 hexists.1).1
    have hfile : s.files a.imageid = some file := h
    refine ⟨hfile, ?_⟩
    show (if a.found = true then s.files a.imageid else none).map (·.mtime) = some file.mtime
    rw [if_pos hfound, hfile]
    rfl
  · nomatch h

theorem accessImage_yields (env : Environment) :
    Yields m (accessImage s env) fun image => ∀ ii, image = .inr ii → ∃ a, ii = imageInfo s a := by
  unfold accessImage
  split
  · exact nofun
  · rename_i a more _
    split
    · exact nofun
    · have hassert : Yields m (assert ((imageInfo s a).flags &&&
          (CONFIG_PATH_ISFILE ||| CONFIG_PATH_ISSIGFILE) ≠ 0)) fun _ => True := by
        unfold assert
        rw [if_pos (decide_eq_true (imageInfo_flags s a).1)]
        trivial
      refine hassert.bind fun _ _ => ?_
      intro ii hii
      exact ⟨a, (Sum.inr.inj hii).symm⟩

variable {r : GetRequest}

section

variable (K : Kept cfg m R I)
include K

theorem admit_yields (hI : I s) (hname : m ∨ NameFits cfg r.idlen r.imageid (r.wanted cfg ≠ 0)) :
    Yields m (accessRequest cfg s r env) fun admitted => ∀ ii, admitted = .inr ii →
      (∃ a, ii = imageInfo s a) ∧ NoMatch s.children ii.imageid .uploader MS_METHOD_UNICAST := by
  unfold accessRequest
  refine (copyId_yields (hname.imp_right And.left)).bind ?_
  rintro imageid rfl
  split
  · exact nofun
  rename_i hwanted
  refine (canonicalId_yields (hname.imp_right fun h => h.2 hwanted)).bind fun imageid _ => ?_
  split
  · exact nofun
  split
  · exact nofun
  have hlocal : Yields m (answerLocal cfg s r env imageid) fun _ => True := by
    unfold answerLocal
    split
    · exact (findchild_yields (K.ordered hI) (.inr (.inr (supported_and _ _)))).imp fun _ _ => trivial
    · trivial
  refine hlocal.bind fun found _ => ?_
  split
  · exact nofun
  refine (accessImage_yields env).bind fun image himage => ?_
  split
  · exact nofun
  rename_i ii
  refine (findchild_yields (K.ordered hI) (.inr (.inl rfl))).bind fun found hfound => ?_
  split
  · exact nofun
  · intro ii' hii'
    obtain rfl := Sum.inr.inj hii'
    exact ⟨himage ii rfl, hfound.2.1 rfl⟩

/-- What a fetch from the parent leaves of the master server: it has only changed if the answer
    is to try again, or is none. -/
theorem fetchParent_yields (hI : I s) {ii : ImageInfo} {authip : Nat} {statusonly : Bool}
    {answer : Option GetReply} (hmasks : fetchMethods cfg ii ≠ 0 → R.masks ii)
    (hup : NoMatch s.children ii.imageid .uploader MS_METHOD_UNICAST)
    (hclient : statusonly = false → fetchMethods cfg ii ≠ 0 →
      NoMatch s.children ii.imageid .client (fetchMethods cfg ii) →
      ∀ reply, answer = some reply → reply.error = 0 → R.ask s ii.imageid reply.method ∧
        (fork.isSome = true → R.client s ii.imageid reply.method)) :
    Yields m (fetchParent cfg s ii authip statusonly answer fork) fun p =>
      I p.1 ∧ (p.2.1 ≠ 0 → p.2.1 ≠ MS_ERROR_TRYAGAIN → p.1 = s) := by
  have hstay : ∀ {q : Nat × GetReply}, I (s, q).1 ∧ ((s, q).2.1 ≠ 0 → (s, q).2.1 ≠ MS_ERROR_TRYAGAIN → (s, q).1 = s) :=
    ⟨hI, fun _ _ => rfl⟩
  unfold fetchParent
  dsimp only
  split
  · exact hstay
  rename_i hmethods
  refine (findchild_yields (K.ordered hI) ((K.masks (hmasks hmethods)).imp_right .inr)).bind ?_
  rintro found ⟨hfound, hnone, -⟩
  split
  · rename_i ci
    split
    · exact hstay
    split
    · exact hstay
    obtain ⟨hmem, hmatch⟩ := hfound ci rfl
    split
    · split
      · exact hstay
      · exact hstay
    · rename_i hextra
      rcases K.extra hI hmem (matches_iff.mp hmatch).1 with h | ⟨sig, size, h⟩
      · exact h
      · exact absurd h (hextra sig size)
  · split
    · exact hstay
    rename_i reply
    split
    · exact hstay
    rename_i herror
    split
    · exact hstay
    rename_i hstatus
    obtain ⟨hask, hclient⟩ := hclient (Bool.eq_false_iff.mpr hstatus) hmethods (hnone rfl) reply rfl
      (not_not.mp herror)
    have hasked := K.ask hI hask
    refine (startclient_yields (K.ordered hI) (hasked.imp_right And.left) (hasked.imp_right And.right)).bind
      fun started hstarted => ?_
    split
    · exact hstay
    · rename_i s' ci
      obtain ⟨hstarted, hfork, hsupported, hnone, hmethod, hptype, himageid, hextra, -⟩ := hstarted s' ci rfl
      refine ⟨?_, fun hrv hrv' => ?_⟩
      · exact K.client hI hstarted (himageid ▸ hmethod ▸ hclient hfork) (himageid ▸ hup) (hmethod ▸ hsupported)
          (himageid ▸ hmethod ▸ hnone) hptype ⟨_, _, hextra⟩
      · exfalso
        revert hrv hrv'
        unfold redirect
        split
        · exact fun _ h => h rfl
        split
        · exact fun _ h => h rfl
        · exact fun h _ => h rfl

/-- Where a local copy may be used, there is one, and the configuration has its signature. -/
def Located.Has (l : Located) (s : Master) : Prop :=
  ∃ file, s.files l.ii.imageid = some file ∧ l.isize = file.size ∧ l.ii.sig = some file.mtime

theorem locate_yields (hI : I s) {a : Access} (hup : NoMatch s.children a.imageid .uploader MS_METHOD_UNICAST)
    (hmasks : localCopy s env (imageInfo s a) = none → cfg.fetchfromabove = true → cfg.mirrormode = false →
      fetchMethods cfg (imageInfo s a) ≠ 0 → R.masks (imageInfo s a)) :
    Yields m (locate cfg s r env (imageInfo s a)) fun located => ∀ l, located = .inr l →
      l.ii = imageInfo s a ∧ (l.getfromparent = false ∨ 0 < l.isize → l.Has s) := by
  unfold locate
  dsimp only
  split
  · rename_i file hcopy
    obtain ⟨hfile, hsig⟩ := localCopy_eq hcopy
    split
    · exact nofun
    split
    · split
      · exact nofun
      · intro l hl
        cases hl
        exact ⟨rfl, fun _ => ⟨file, hfile, rfl, hsig⟩⟩
    · intro l hl
      cases hl
      exact ⟨rfl, fun _ => ⟨file, hfile, rfl, hsig⟩⟩
  · rename_i hcopy
    -- without a copy the image is fetched
    have hfetched : ∀ {reply : GetReply} (l : Located),
        (Sum.inr ⟨imageInfo s a, 0, reply, true⟩ : GetReply ⊕ Located) = .inr l →
          l.ii = imageInfo s a ∧ (l.getfromparent = false ∨ 0 < l.isize → l.Has s) := by
      intro reply l hl
      cases hl
      exact ⟨rfl, by simp⟩
    split
    · rename_i habove
      split
      · split
        · exact nofun
        · exact hfetched
      · rename_i hmirror
        refine (fetchParent_yields K hI (hmasks hcopy habove (Bool.eq_false_iff.mpr hmirror)) hup ?_).bind ?_
        · intro hstatus
          nomatch hstatus
        rintro ⟨s', rv, status⟩ -
        dsimp only
        split
        · exact nofun
        split
        · exact nofun
        · exact hfetched
    · exact nofun

theorem fetch_yields (hI : I s) {l : Located} (hok : GetOk cfg R s r env) (hl : Locates cfg s r env l)
    (hup : NoMatch s.children l.ii.imageid .uploader MS_METHOD_UNICAST) :
    Yields m (fetch cfg s r env l) fun p =>
      I p.1 ∧ (p.2 = none → p.1 = s ∧ (l.getfromparent = false ∨ 0 < l.isize)) := by
  unfold fetch
  split
  · rename_i hget
    exact ⟨hI, fun _ => ⟨rfl, .inl (by simpa using hget)⟩⟩
  rename_i hget
  have hget : l.getfromparent = true := by simpa using hget
  refine (fetchParent_yields K hI (hok.parent l hl hget) hup fun _ => hok.client l hl hget).bind ?_
  rintro ⟨s', rv, reply⟩ ⟨hI', hsame⟩
  dsimp only at hI' hsame ⊢
  split
  · exact ⟨hI', nofun⟩
  split
  · rw [if_neg fun h => h.1 rfl]
    exact ⟨hI', nofun⟩
  rename_i hrv
  split
  · rename_i hretry
    exact ⟨hI', fun _ => ⟨hsame hrv hretry.1, .inr hretry.2⟩⟩
  · exact ⟨hI', nofun⟩

theorem running_kept (hI : I s) {l : Located} (hl : l.Has s)
    (hmem : ci ∈ s.children) (hptype : ci.ptype = .server) (himageid : ci.imageid = l.ii.imageid) :
    I (running s ci l).1 := by
  obtain ⟨file, hfile, hsize, hsig⟩ := hl
  show I { s with told := ⟨ci.reads, l.isize, l.ii.sig.or l.reply.sig⟩ :: s.told }
  rw [hsize, hsig]
  exact K.tell hI hmem hptype (himageid ▸ hfile)

theorem serve_yields (hI : I s) {l : Located}
    (hok : GetOk cfg R s r env) (hl : Locates cfg s r env l) (hfetch : fetch cfg s r env l = .ok (s, none))
    (hup : NoMatch s.children l.ii.imageid .uploader MS_METHOD_UNICAST) (hhas : l.Has s)
    (hii : ∃ a, l.ii = imageInfo s a) : Yields m (serve cfg s r env l) fun p => I p.1 := by
  have hsupported : Supported cfg (r.wanted cfg &&& l.ii.get_methods) :=
    supported_left (supported_and r.methods cfg)
  have hassert : Yields m (assert (l.ii.sig.isNone || l.ii.flags &&& CONFIG_SIG_ISMTIME ≠ 0)) fun _ => True := by
    obtain ⟨a, ha⟩ := hii
    have hflags := (imageInfo_flags s a).2.1
    rw [← ha] at hflags
    have : (l.ii.sig.isNone || l.ii.flags &&& CONFIG_SIG_ISMTIME ≠ 0) = true := by
      cases h : l.ii.sig.isNone with
      | true => rfl
      | false => simpa using hflags h
    unfold assert
    rw [if_pos this]
    trivial
  unfold serve
  dsimp only
  split
  · exact hI
  refine (findchild_yields (K.ordered hI) (.inr (.inr hsupported))).bind ?_
  rintro found ⟨hfound, hnone, -⟩
  split
  · rename_i ci
    obtain ⟨hmem, hmatch⟩ := hfound ci rfl
    obtain ⟨hptype, -, himageid⟩ := matches_iff.mp hmatch
    split
    · exact hI
    · exact hassert.bind fun _ _ => running_kept K hI hhas hmem hptype himageid
  · refine hassert.bind fun _ _ => ?_
    split
    · exact hI
    rename_i hstatus
    split
    · exact hI
    rename_i hloopback
    have hstart := hok.server l hl hfetch (Bool.eq_false_iff.mpr hstatus) hloopback
    refine (startserver_yields (K.ordered hI) (.inr hsupported) (.inr (hnone rfl))).bind fun started hstarted => ?_
    split
    · exact hI
    rename_i s' ci
    obtain ⟨hstarted, hindex, hfork, hmethod, hptype, himageid, hreads, -⟩ := hstarted s' ci rfl
    have hI' : I s' := K.server hI hstarted (himageid ▸ hstart hindex hfork (hnone rfl) _ hmethod) (himageid ▸ hup)
      hsupported hmethod hptype (himageid ▸ hreads)
    have hs' : s'.children = ci :: s.children := by rw [hstarted.add]; rfl
    refine (settle_yields K.counted K.reap K.port hI' hs' (by rw [hptype]; nofun)).bind ?_
    rintro ⟨s'', settled⟩ ⟨hI'', hfiles, hsettled⟩
    dsimp only at hI'' hfiles hsettled ⊢
    split
    · rename_i heq
      cases heq
      exact hI''
    · rename_i ci' heq
      cases heq
      obtain ⟨hmem, hptype', himageid'⟩ := hsettled ci' rfl
      have hfiles' : s''.files = s.files := by
        rw [hfiles hptype, hstarted.add]
        rfl
      have hhas' : l.Has s'' := by
        unfold Located.Has
        rw [hfiles']
        exact hhas
      exact running_kept K hI'' hhas' hmem (hptype'.trans hptype) (himageid'.trans himageid)

/-- A GET request keeps what its steps keep. -/
theorem handleGet_yields (hI : I s)
    (hname : m ∨ NameFits cfg r.idlen r.imageid (r.wanted cfg ≠ 0)) (hok : GetOk cfg R s r env) :
    Yields m (handleGet cfg s r env) fun p => I p.1 := by
  unfold handleGet
  refine (admit_yields K hI hname).and_ok.bind ?_
  rintro admitted ⟨hadmitted, hadmit⟩
  split
  · exact hI
  rename_i ii
  obtain ⟨⟨a, rfl⟩, hup⟩ := hadmitted ii rfl
  refine (locate_yields K hI hup (hok.status _ hadmit)).and_ok.bind ?_
  rintro located ⟨hlocated, hlocate⟩
  split
  · exact hI
  rename_i l
  obtain ⟨hii, hhas⟩ := hlocated l rfl
  have hl : Locates cfg s r env l := ⟨_, hadmit, hlocate⟩
  have hup : NoMatch s.children l.ii.imageid .uploader MS_METHOD_UNICAST := by
    rw [hii]
    exact hup
  refine (fetch_yields K hI hok hl hup).and_ok.bind ?_
  rintro ⟨s', reply⟩ ⟨⟨hI', hlocal⟩, hfetch⟩
  dsimp only at hI' hlocal hfetch ⊢
  split
  · rename_i heq
    cases heq
    exact hI'
  · rename_i heq
    cases heq
    obtain ⟨rfl, hcopy⟩ := hlocal rfl
    exact serve_yields K hI hok hl hfetch hup (hhas hcopy) ⟨a, hii⟩

theorem conflict_yields (hI : I s) (imageid : ImageId) :
    Yields m (conflict cfg s imageid) fun found => found = none →
      NoMatch s.children imageid .server cfg.onlymethods ∧ NoMatch s.children imageid .client cfg.onlymethods ∧
        NoMatch s.children imageid .uploader MS_METHOD_UNICAST := by
  have honly : Supported cfg cfg.onlymethods := by simp [Supported]
  unfold conflict
  refine (findchild_yields (K.ordered hI) (.inr (.inr honly))).bind ?_
  rintro server ⟨-, hserver, -⟩
  split
  · exact nofun
  refine (findchild_yields (K.ordered hI) (.inr (.inr honly))).bind ?_
  rintro client ⟨-, hclient, -⟩
  split
  · exact nofun
  refine (findchild_yields (K.ordered hI) (.inr (.inl rfl))).imp ?_
  rintro uploader ⟨-, huploader, -⟩ hnone
  exact ⟨hserver rfl, hclient rfl, huploader hnone⟩

theorem receive_yields (hI : I s) {r : PutRequest} (a : Access) :
    Yields m (receive cfg s r env (imageInfo s a)) fun p => I p.1 := by
  unfold receive
  refine (conflict_yields K hI _).bind fun found hfree => ?_
  split
  · exact hI
  obtain ⟨hserver, hclient, huploader⟩ := hfree rfl
  dsimp only
  split
  · exact hI
  have hassert : Yields m (assert ((localCopy s env (imageInfo s a)).isNone || (imageInfo s a).sig.isNone ||
      (imageInfo s a).flags &&& CONFIG_SIG_ISMTIME ≠ 0)) fun _ => True := by
    have : ((localCopy s env (imageInfo s a)).isNone || (imageInfo s a).sig.isNone ||
        (imageInfo s a).flags &&& CONFIG_SIG_ISMTIME ≠ 0) = true := by
      cases h : (imageInfo s a).sig.isNone with
      | true => simp
      | false => simpa using .inr ((imageInfo_flags s a).2.1 h)
    unfold assert
    rw [if_pos this]
    trivial
  refine hassert.bind fun _ _ => ?_
  split
  · exact hI
  have hany : m ∨ NoMatch s.children (imageInfo s a).imageid .uploader MS_METHOD_ANY := by
    refine .inr (noMatch_iff.mpr fun c hc hptype himageid => ?_)
    have hmethod := K.unicast hI hc hptype
    have := noMatch_iff.mp huploader c hc hptype himageid
    rw [hmethod] at this
    nomatch this
  refine (startuploader_yields (K.ordered hI) hany).bind fun started hstarted => ?_
  split
  · exact hI
  rename_i s' ci
  obtain ⟨hstarted, hmethod, hptype, himageid, hextra⟩ := hstarted s' ci rfl
  have hI' : I s' := K.uploader hI hstarted (himageid ▸ hserver) (himageid ▸ hclient) (himageid ▸ huploader) hmethod
    hptype ⟨_, _, hextra⟩
  have hs' : s'.children = ci :: s.children := by rw [hstarted.add]; rfl
  refine (settle_yields K.counted K.reap K.port hI' hs' (by rw [hptype]; nofun)).bind ?_
  rintro ⟨s'', settled⟩ ⟨hI'', -, -⟩
  dsimp only at hI'' ⊢
  split
  · rename_i heq
    cases heq
    split
    · exact hI''
    · exact hI''
  · rename_i heq
    cases heq
    exact hI''

theorem handlePut_yields (hI : I s) {r : PutRequest} (hname : m ∨ NameFits cfg r.idlen r.imageid True) :
    Yields m (handlePut cfg s r env) fun p => I p.1 := by
  unfold handlePut
  refine (copyId_yields (hname.imp_right And.left)).bind ?_
  rintro imageid rfl
  refine (canonicalId_yields (hname.imp_right fun h => h.2 trivial)).bind fun _ _ => ?_
  split
  · exact hI
  refine (accessImage_yields env).bind fun image himage => ?_
  split
  · exact hI
  rename_i ii
  obtain ⟨a, rfl⟩ := himage ii rfl
  split
  · exact hI
  split
  · exact hI
  · exact receive_yields K hI a

end

def Message.IsGet (msg : Message) : Prop :=
  sizeofHdr + sizeofGetRequest ≤ msg.cc ∧ msg.type = MS_MSGTYPE_GETREQUEST

def Message.IsPut (msg : Message) : Prop :=
  sizeofHdr + sizeofPutRequest ≤ msg.cc ∧ msg.type = MS_MSGTYPE_PUTREQUEST

theorem map_fst_yields {α : Type} {x : Except Stop (Master × α)} (h : Yields m x fun p => I p.1) :
    Yields m (x.map (·.1)) I := by
  cases x with
  | ok p => exact h
  | error stop => exact h

theorem handleRequest_yields (K : Kept cfg m R I) (hI : I s) {msg : Message}
    (hget : msg.IsGet → (m ∨ NameFits cfg msg.getrequest.idlen msg.getrequest.imageid
      (msg.getrequest.wanted cfg ≠ 0)) ∧ GetOk cfg R s msg.getrequest env)
    (hput : msg.IsPut → m ∨ NameFits cfg msg.putrequest.idlen msg.putrequest.imageid True) :
    Yields m (handleRequest cfg s msg env) I := by
  unfold handleRequest
  split
  · exact hI
  split
  · rename_i htype
    split
    · exact hI
    · rename_i hsize
      obtain ⟨hname, hok⟩ := hget ⟨Nat.le_of_not_lt hsize, htype⟩
      exact map_fst_yields (handleGet_yields K hI hname hok)
  split
  · rename_i htype
    split
    · exact hI
    · rename_i hsize
      exact map_fst_yields (handlePut_yields K hI (hput ⟨Nat.le_of_not_lt hsize, htype⟩))
  · exact hI

end Emulab.Frisbee.MasterServer
