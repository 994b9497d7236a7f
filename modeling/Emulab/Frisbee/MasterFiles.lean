import Emulab.Frisbee.MasterRequests

/-! # Images are not changed under those who use them

  The children of the master server write and read the files of images: a client and an
  uploader write the temporary file, which is moved into place when they are done, and a
  server reads the file that it has been started on. -/

namespace Emulab.Frisbee.MasterServer

open Outcome List Option

variable {cfg : Config} {s : Master}

/-! ## Section 1: Exclusive use -/

/-- What is promised of the files of images. -/
structure Consistent (s : Master) : Prop where
  /-- Of two children of an image at most one writes its temporary file. -/
  writer : s.children.Pairwise fun c c' => c.imageid = c'.imageid → c.ptype = .server ∨ c'.ptype = .server
  /-- An image that is uploaded is not served, and not downloaded. -/
  upload : ∀ c ∈ s.children, c.ptype = .uploader → ∀ c' ∈ s.children, c'.imageid = c.imageid → c'.ptype = .uploader
  /-- What has been moved into place was complete, and nobody served the old version. -/
  installs : ∀ i ∈ s.installs, i.status = 0 ∧ i.served = false
  /-- A reply about a server is about the file that it serves. -/
  told : ∀ t ∈ s.told, ∃ file, t.reads = some file ∧ t.size = file.size ∧ t.sig = some file.mtime

/-- Two children of an image are servers. -/
def Apart (c c' : Child) : Prop := c.imageid = c'.imageid → c.ptype = .server ∧ c'.ptype = .server

/-- A child that a PUT request finds: it has one of the methods of the master server, and one
    only if it has been given an address. -/
structure Child.Seen (cfg : Config) (c : Child) : Prop where
  unicast : c.ptype = .uploader → c.method = MS_METHOD_UNICAST
  only : c.ptype ≠ .uploader → c.method &&& cfg.onlymethods ≠ 0
  one : c.ptype ≠ .client → serverMethod c.method = some c.method

/-- Children are apart, and servers read the files that there are. -/
structure Exclusive (cfg : Config) (s : Master) : Prop where
  apart : s.children.Pairwise Apart
  seen : ∀ c ∈ s.children, c.Seen cfg
  reads : ∀ c ∈ s.children, c.ptype = .server → c.reads = s.files c.imageid
  installs : ∀ i ∈ s.installs, i.status = 0 ∧ i.served = false
  told : ∀ t ∈ s.told, ∃ file, t.reads = some file ∧ t.size = file.size ∧ t.sig = some file.mtime

theorem Apart.symm {c c' : Child} (h : Apart c c') : Apart c' c := fun heq => (h heq.symm).symm

instance symm_apart : Std.Symm Apart := ⟨fun _ _ h => h.symm⟩

theorem Exclusive.consistent (h : Exclusive cfg s) : Consistent s where
  writer := h.apart.imp fun hapart heq => .inl (hapart heq).1
  upload c hc hup c' hc' heq := by
    by_cases hcc : c = c'
    · rw [← hcc]
      exact hup
    · rw [(h.apart.forall hc hc' hcc heq.symm).1] at hup
      nomatch hup
  installs := h.installs
  told := h.told

/-! ## Section 2: Steps -/

/-- A download is started if the image is neither served nor downloaded, and with a method by
    which it is found; a server if the image is not downloaded. -/
def exclusive : Rules where
  masks _ := True
  ask _ _ _ := True
  client s imageid method :=
    (∀ c ∈ s.children, c.imageid = imageid → c.ptype = .uploader) ∧ method ≠ 0
  server s imageid _ := ∀ c ∈ s.children, c.imageid = imageid → c.ptype ≠ .client

variable {ci : Child}

section

variable (h : Exclusive cfg s)
include h

theorem Exclusive.add {n : Nat} (hapart : ∀ c ∈ s.children, Apart ci c) (hseen : ci.Seen cfg)
    (hreads : ci.ptype = .server → ci.reads = s.files ci.imageid) :
    Exclusive cfg (({ s with next := n } : Master).add ci) where
  apart := pairwise_cons.mpr ⟨hapart, h.apart⟩
  seen := forall_mem_cons.mpr ⟨hseen, h.seen⟩
  reads := forall_mem_cons.mpr ⟨hreads, h.reads⟩
  installs := h.installs
  told := h.told

/-- A child that leaves the list is a server like the other children of its image. -/
theorem Exclusive.unlink {pid : Nat} (hfind : (s.children.find? fun c => c.pid = pid) = some ci) :
    Exclusive cfg (s.unlink pid) ∧ ci.Seen cfg ∧ ∀ c ∈ (s.unlink pid).children, Apart ci c := by
  obtain ⟨-, before, after, hs, hunlink⟩ := unlink_split hfind
  have happart := h.apart
  rw [hs, pairwise_middle fun h => Apart.symm h] at happart
  obtain ⟨hci, hrest⟩ := pairwise_cons.mp happart
  have hmem : ∀ c ∈ (s.unlink pid).children, c ∈ s.children := by
    rw [hunlink, hs]
    intro c hc
    rcases mem_append.mp hc with hc | hc
    · exact mem_append_left _ hc
    · exact mem_append_right _ (mem_cons_of_mem _ hc)
  refine ⟨?_, h.seen ci (by rw [hs]; simp), by rw [hunlink]; exact hci⟩
  exact {
    apart := by rw [hunlink]; exact hrest
    seen := fun c hc => h.seen c (hmem c hc)
    reads := fun c hc => h.reads c (hmem c hc)
    installs := h.installs
    told := h.told }

theorem Exclusive.setPort {id port : Nat} : Exclusive cfg (setPort s id port) where
  apart := by
    refine pairwise_map.mpr (h.apart.imp fun {c c'} happart => ?_)
    unfold Apart
    split <;> split <;> exact happart
  seen c' hc' := by
    obtain ⟨c, hc, rfl⟩ := mem_map.mp hc'
    have hseen := h.seen c hc
    split <;> exact ⟨hseen.unicast, hseen.only, hseen.one⟩
  reads c' hc' := by
    obtain ⟨c, hc, rfl⟩ := mem_map.mp hc'
    split <;> exact h.reads c hc
  installs := h.installs
  told := h.told

theorem Exclusive.files {imageid : ImageId} {file : Option File} {installs : List Install}
    (hfree : ∀ c ∈ s.children, c.imageid ≠ imageid) (hinstalls : ∀ i ∈ installs, i.status = 0 ∧ i.served = false) :
    Exclusive cfg { s with files := Function.update s.files imageid file, installs := installs } where
  apart := h.apart
  seen := h.seen
  reads c hc hserver := by
    rw [h.reads c hc hserver]
    exact (Function.update_of_ne (hfree c hc) _ _).symm
  installs := hinstalls
  told := h.told

theorem Exclusive.remove (hfree : ∀ c ∈ s.children, c.imageid ≠ ci.imageid) : Exclusive cfg (s.remove ci) :=
  h.files hfree h.installs

theorem Exclusive.install {w : Wait} {file : File}
    (hfree : ∀ c ∈ s.children, c.imageid ≠ ci.imageid) (hstatus : w.status = 0) :
    Exclusive cfg (s.install ci w file) := by
  refine h.files hfree (forall_mem_cons.mpr ⟨⟨hstatus, ?_⟩, h.installs⟩)
  show (s.children.any fun c => c.ptype = .server && c.imageid = ci.imageid) = false
  simpa using fun c hc _ => hfree c hc

theorem Exclusive.moveIntoPlace {w : Wait} {file : File}
    (hfree : ∀ c ∈ s.children, c.imageid ≠ ci.imageid) (hstatus : w.status = 0) :
    Exclusive cfg (moveIntoPlace s ci w file) := by
  unfold MasterServer.moveIntoPlace
  split
  · exact h.install hfree hstatus
  split
  · exact h.remove hfree
  · exact h

/-- The callback of a child changes the file of an image that no other child uses. -/
theorem Exclusive.done {w : Wait} (hapart : ∀ c ∈ s.children, Apart ci c) :
    Yields True (done s ci w) (Exclusive cfg) := by
  have hcallback : Exclusive cfg (s.callback ci) := ⟨h.apart, h.seen, h.reads, h.installs, h.told⟩
  have hfree : ci.ptype ≠ .server → ∀ c ∈ (s.callback ci).children, c.imageid ≠ ci.imageid :=
    fun hptype c hc heq => hptype (hapart c hc heq.symm).1
  unfold MasterServer.done
  cases hptype : ci.ptype with
  | server => exact h
  | client =>
    have hfree := hfree (by rw [hptype]; nofun)
    dsimp only
    unfold finishclient
    split
    · split
      · exact hcallback
      · rename_i hstatus
        exact hcallback.moveIntoPlace hfree (not_not.mp hstatus)
    · trivial
  | uploader =>
    have hfree := hfree (by rw [hptype]; nofun)
    dsimp only
    unfold finishupload
    split
    · split
      · show Exclusive cfg (if _ then _ else _)
        split
        · exact hcallback
        · exact hcallback.remove hfree
      · rename_i hstatus
        have hstatus := not_not.mp hstatus
        show Exclusive cfg (if _ then _ else _)
        split
        · exact hcallback.moveIntoPlace hfree hstatus
        · exact hcallback.install hfree hstatus
    · trivial

end

theorem serverMethod_eq {methods method : Methods} (h : serverMethod methods = some method) :
    methods &&& method ≠ 0 ∧
      (method = MS_METHOD_UNICAST ∨ method = MS_METHOD_MULTICAST ∨ method = MS_METHOD_BROADCAST) := by
  unfold serverMethod at h
  split at h
  · cases h
    exact ⟨‹_›, .inr (.inl rfl)⟩
  split at h
  · cases h
    exact ⟨‹_›, .inl rfl⟩
  split at h
  · cases h
    exact ⟨‹_›, .inr (.inr rfl)⟩
  · nomatch h

theorem serverMethod_again {methods method : Methods} (h : serverMethod methods = some method) :
    serverMethod method = some method := by
  obtain ⟨-, rfl | rfl | rfl⟩ := serverMethod_eq h <;> rfl

theorem and_only_ne_zero {methods method : Methods} (hsupported : Supported cfg methods)
    (h : methods &&& method ≠ 0) : method &&& cfg.onlymethods ≠ 0 := by
  intro hzero
  apply h
  ext i hi
  have hs := congrArg (·.getLsbD i) hsupported
  have hz := congrArg (·.getLsbD i) hzero
  simp [hi] at hs hz ⊢
  grind

/-- A child that has exited leaves the list, or it is restarted with the method that it has. -/
theorem Exclusive.reapOne {w : Wait} (h : Exclusive cfg s) :
    Yields True (reapOne s w) fun p => Exclusive cfg p.1 := by
  unfold MasterServer.reapOne
  split
  · exact h
  rename_i ci hfind
  obtain ⟨h', hseen, hapart⟩ := h.unlink hfind
  split
  · rename_i s' hrestart
    obtain ⟨a, method, pid, -, -, -, -, hptype, hmethod, -, rfl⟩ := restart_eq hrestart
    rw [hseen.one hptype] at hmethod
    obtain rfl := some.inj hmethod
    refine h'.add hapart ⟨hseen.unicast, hseen.only, hseen.one⟩ fun hserver => ?_
    exact if_pos hserver
  · refine (h'.done hapart).bind fun s' hs' => ?_
    exact ⟨hs'.apart, hs'.seen, hs'.reads, hs'.installs, hs'.told⟩

theorem noMatch_uploader {imageid : ImageId} (h : Exclusive cfg s)
    (hup : NoMatch s.children imageid .uploader MS_METHOD_UNICAST) :
    ∀ c ∈ s.children, c.imageid = imageid → c.ptype ≠ .uploader := by
  intro c hc himageid hptype
  have := noMatch_iff.mp hup c hc hptype himageid
  rw [(h.seen c hc).unicast hptype] at this
  nomatch this

theorem noMatch_only {imageid : ImageId} {ptype : PType} (h : Exclusive cfg s) (hptype : ptype ≠ .uploader)
    (hnone : NoMatch s.children imageid ptype cfg.onlymethods) :
    ∀ c ∈ s.children, c.imageid = imageid → c.ptype ≠ ptype := by
  rintro c hc himageid rfl
  exact (h.seen c hc).only hptype (noMatch_iff.mp hnone c hc rfl himageid)

theorem kept_exclusive : Kept cfg True exclusive (Exclusive cfg) where
  ordered _ := .inl trivial
  counted _ := .inl trivial
  extra _ _ _ := .inl trivial
  unicast h hc hptype := (h.seen _ hc).unicast hptype
  masks _ := .inl trivial
  ask _ _ := .inl trivial
  tell {s ci f} h hmem hserver hfile := by
    refine ⟨h.apart, h.seen, h.reads, h.installs, forall_mem_cons.mpr ⟨⟨f, ?_, rfl, rfl⟩, h.told⟩⟩
    rw [h.reads ci hmem hserver, hfile]
  port h := h.setPort
  client {s s' ci} h hstarted hrule hup hsupported _ hptype _ := by
    rw [hstarted.add]
    have hfree : ∀ c ∈ s.children, c.imageid ≠ ci.imageid := fun c hc heq =>
      noMatch_uploader h hup c hc heq (hrule.1 c hc heq)
    refine h.add (fun c hc heq => absurd heq.symm (hfree c hc)) ⟨?_, fun _ => ?_, fun hne => ?_⟩ ?_
    · rw [hptype]
      nofun
    · exact and_only_ne_zero hsupported (by simpa using hrule.2)
    · exact absurd hptype hne
    · rw [hptype]
      nofun
  server {s s' ci methods} h hstarted hrule hup hsupported hmethod hptype hreads := by
    rw [hstarted.add]
    refine h.add (fun c hc heq => ⟨hptype, ?_⟩) ⟨?_, fun _ => ?_, fun _ => ?_⟩ fun _ => hreads
    · have hclient := hrule c hc heq.symm
      have huploader := noMatch_uploader h hup c hc heq.symm
      cases hc : c.ptype with
      | client => exact absurd hc hclient
      | server => rfl
      | uploader => exact absurd hc huploader
    · rw [hptype]
      nofun
    · exact and_only_ne_zero hsupported (serverMethod_eq hmethod).1
    · exact serverMethod_again hmethod
  uploader {s s' ci} h hstarted hserver hclient hup hmethod hptype _ := by
    rw [hstarted.add]
    have hfree : ∀ c ∈ s.children, c.imageid ≠ ci.imageid := by
      intro c hc heq
      cases hc' : c.ptype with
      | client => exact noMatch_only h (by decide) hclient c hc heq hc'
      | server => exact noMatch_only h (by decide) hserver c hc heq hc'
      | uploader => exact noMatch_uploader h hup c hc heq hc'
    refine h.add (fun c hc heq => absurd heq.symm (hfree c hc)) ⟨fun _ => hmethod, ?_, fun _ => ?_⟩ ?_
    · rw [hptype]
      nofun
    · rw [hmethod]
      rfl
    · rw [hptype]
      nofun
  reap h _ _ _ := h.reapOne

/-! ## Section 3: Runs -/

/-- A GET request that starts a download or a server follows the rules. -/
def ExclusiveOk (cfg : Config) (s : Master) : Event → Prop
  | .request msg env => msg.IsGet → GetOk cfg exclusive s msg.getrequest env
  | .exit _ => True

theorem Exclusive.step (h : Exclusive cfg s) {e : Event} (hok : ExclusiveOk cfg s e) :
    Yields True (step cfg s e) (Exclusive cfg) := by
  cases e with
  | request msg env => exact handleRequest_yields kept_exclusive h (fun hget => ⟨.inl trivial, hok hget⟩) fun _ => .inl trivial
  | exit w =>
    show Yields True (reap s w) _
    unfold reap
    split
    · have hassert : Yields True (assert s.children.isEmpty) fun _ => True := yields_of_ok trivial fun _ _ => trivial
      exact hassert.bind fun _ _ => h
    · exact h.reapOne.bind fun p hp => hp

theorem exclusive_init (cfg : Config) (files : ImageId → Option File) : Exclusive cfg (.init files) where
  apart := .nil
  seen := nofun
  reads := nofun
  installs := nofun
  told := nofun

/-- Images are not changed under those who use them in a run in which GET requests follow the rules. -/
theorem images_consistent {files : ImageId → Option File} {es : List Event} {s : Master}
    (hok : Machine.Meets (machine cfg) (ExclusiveOk cfg) (.init files) es)
    (hrun : Machine.run (machine cfg) (.init files) es = some s) : Consistent s := by
  refine Exclusive.consistent (Machine.run_inv (Exclusive cfg) ?_ (exclusive_init cfg files) hok hrun)
  intro s e s' hs hok hstep
  have hstep : step cfg s e = .ok s' := by
    unfold machine at hstep
    cases h : step cfg s e with
    | ok a =>
      rw [h] at hstep
      exact congrArg _ (some.inj hstep)
    | error stop =>
      rw [h] at hstep
      nomatch hstep
  exact (hs.step hok).of_ok hstep

/-! ## Section 4: A mirror, and an upload -/

/-- A mirror that supports unicast and multicast. -/
def mirrorConfig : Config where
  onlymethods := 3
  parentmethods := 3
  mirrormode := true
  canredirect := false
  usechildauth := false
  fetchfromabove := true
  ifaceip := INADDR_ANY
  canonicalize _ := none
  mirror _ := rfl

def anImage : ImageId := [0x61]

def oldFile : File := ⟨1, 10, 1⟩

/-- The old version of the image is there. -/
def oldFiles : ImageId → Option File := fun imageid => if imageid = anImage then some oldFile else none

/-- A host may get the image and put it; there is nothing to hear from the parent. -/
def anEnvironment : Environment where
  cip := 0x0a000001
  sip := 0x0a000002
  auth := .ok (⟨anImage, false, true, 7, 100, true⟩, false)
  mirror := none
  parentStatus := none
  parentGet := none
  stat := true
  regular := true
  errno := 0
  clientFork := none
  index := some ⟨0xea000001, 3000, 3000⟩
  fork := none
  waits := []
  port := none
  now := 1000

def getImage (methods : Methods) (status : Bool) : Message where
  cc := 500
  type := MS_MSGTYPE_GETREQUEST
  getrequest := ⟨0, methods, status, 1, Vector.replicate _ 0x61⟩
  putrequest := ⟨0, status, 1, Vector.replicate _ 0x61, 0, 0, 0⟩

def putImage : Message := { getImage 0 false with type := MS_MSGTYPE_PUTREQUEST }

/-- The parent has a version of the image. -/
def parentHas (mtime : Int) (size : Nat) : GetReply :=
  { GetReply.empty with method := MS_METHOD_MULTICAST, sig := some mtime, size := size }

/-- A process exits, and its file is moved into place. -/
def exits (pid : Nat) (file : File) : Wait where
  pid := pid
  status := 0
  address := none
  fork := none
  file := file
  backedup := true
  renamed := true
  restored := false

/-- The image is served, then the parent has a new version, which is downloaded while it is. -/
def mirrorRun : List Event :=
  [.request (getImage 3 false) { anEnvironment with mirror := some (parentHas 1 10), fork := some 100 },
    .request (getImage 3 false) { anEnvironment with
      mirror := some (parentHas 2 20), parentGet := some (parentHas 2 20), clientFork := some 101 },
    .exit (exits 101 ⟨2, 20, 5⟩),
    .request (getImage 3 true) { anEnvironment with mirror := some (parentHas 2 20) }]

theorem run_mirrorRun :
    (Machine.run (machine mirrorConfig) (.init oldFiles) mirrorRun).map (fun s => (s.installs, s.told)) =
      some ([⟨anImage, 0, true⟩], [⟨some oldFile, 20, some 2⟩, ⟨some oldFile, 10, some 1⟩]) := by
  decide +kernel

/-- A mirror installs a new version while the old one is served, and then tells the size and the
    signature of the new one with the server of the old one. -/
theorem mirror_not_consistent :
    ¬∀ (cfg : Config) (files : ImageId → Option File) (es : List Event) (s : Master),
      Machine.run (machine cfg) (.init files) es = some s → Consistent s := by
  intro h
  obtain ⟨s, hrun, heq⟩ := map_eq_some_iff.mp run_mirrorRun
  have hinstalls := (h mirrorConfig oldFiles mirrorRun s hrun).installs ⟨anImage, 0, true⟩ (by
    rw [(Prod.mk.inj heq).1]
    exact mem_cons_self)
  nomatch hinstalls.2

/-- An upload of the image, which is there afterwards. -/
def uploadRun : List Event :=
  [.request putImage { anEnvironment with fork := some 100 }, .exit (exits 100 ⟨2, 20, 5⟩)]

/-- The master server without a parent. -/
def rootConfig : Config := { mirrorConfig with mirrormode := false, fetchfromabove := false, mirror := nofun }

theorem images_consistent_upload :
    ∃ s, Machine.run (machine rootConfig) (.init oldFiles) uploadRun = some s ∧
      s.files anImage = some ⟨2, 20, 5⟩ ∧ Consistent s := by
  have hrun : (Machine.run (machine rootConfig) (.init oldFiles) uploadRun).map (fun s => s.files anImage) =
      some (some ⟨2, 20, 5⟩) := by
    decide +kernel
  obtain ⟨s, hs, hfile⟩ := map_eq_some_iff.mp hrun
  refine ⟨s, hs, hfile, @images_consistent rootConfig oldFiles uploadRun s ⟨?_, fun _ _ => ⟨trivial, fun _ _ => trivial⟩⟩ hs⟩
  intro hget
  exact absurd hget.2 (by decide)

end Emulab.Frisbee.MasterServer
