import Mathlib.Data.List.Pairwise
import Mathlib.Logic.Function.Basic
import Emulab.Lib.Machine
import Emulab.Lib.Outcome

/-! # The frisbee master server

  The master server listens for GET and PUT requests, and forks off the processes that
  handle them: servers that distribute an image, clients that download one from the
  parent of the master server, and uploaders. It knows its children by a list, and
  moves what has been transferred into place when a child has exited.
-/

namespace Emulab.Frisbee.MasterServer

open Outcome

/-! ## Section 1: Images, files and children -/

/-- Transfer methods, one bit for each. -/
abbrev Methods : Type := BitVec 8

abbrev MS_METHOD_UNICAST : Methods := 1
abbrev MS_METHOD_MULTICAST : Methods := 2
abbrev MS_METHOD_BROADCAST : Methods := 4
abbrev MS_METHOD_ANY : Methods := 7

abbrev MS_MAXIDLEN : Nat := 256

abbrev MS_ERROR_FAILED : Nat := 1
abbrev MS_ERROR_NOIMAGE : Nat := 3
abbrev MS_ERROR_NOMETHOD : Nat := 5
abbrev MS_ERROR_INVALID : Nat := 6
abbrev MS_ERROR_TRYAGAIN : Nat := 7
abbrev MS_ERROR_TOOBIG : Nat := 8
abbrev MS_ERROR_BADMTIME : Nat := 9
abbrev MS_ERROR_NOTIMPL : Nat := 10

abbrev CONFIG_PATH_ISFILE : BitVec 16 := 0x1
abbrev CONFIG_PATH_ISSIGFILE : BitVec 16 := 0x10
abbrev CONFIG_PATH_EXISTS : BitVec 16 := 0x40
abbrev CONFIG_SIG_ISMTIME : BitVec 16 := 0x1000

/-- The error of a process that could not bind to its port. -/
abbrev EADDRINUSE : Nat := 98

abbrev INADDR_LOOPBACK : Nat := 0x7f000001
abbrev INADDR_ANY : Nat := 0
abbrev INADDR_BROADCAST : Nat := 0xffffffff

/-- A server is tried on other ports so many times. -/
abbrev FRISBEE_RETRIES : Nat := 1

/-- An image id: the bytes of a string. -/
abbrev ImageId : Type := List (BitVec 8)

/-- A version of an image's file. -/
structure File where
  /-- Which contents it has. -/
  version : Nat
  size : Nat
  mtime : Int
deriving DecidableEq

inductive PType
  | client
  | server
  | uploader
deriving DecidableEq

/-- What a child's callback needs: the status of the image at the parent, or how a file is uploaded. -/
inductive Extra
  | client (sig : Option Int) (size : Nat)
  | upload (realname : Bool) (mtime : Int)
deriving DecidableEq

structure Child where
  id : Nat
  imageid : ImageId
  ptype : PType
  method : Methods
  pid : Nat
  /-- How often it may still be restarted. -/
  retries : Nat
  servaddr : Nat
  addr : Nat
  loport : Nat
  hiport : Nat
  extra : Option Extra
  /-- The file that a server was started on. -/
  reads : Option File
deriving DecidableEq

/-- A file that has been moved into place. -/
structure Install where
  imageid : ImageId
  status : Nat
  /-- A server of the image was running. -/
  served : Bool
deriving DecidableEq

/-- A reply with the size and the signature of an image that a server of this master server is named for. -/
structure Told where
  reads : Option File
  size : Nat
  sig : Option Int
deriving DecidableEq

/-- The state of the master server, and a record of what it has done. -/
structure Master where
  children : List Child
  nchildren : Nat
  files : ImageId → Option File
  /-- The number of the next child. -/
  next : Nat
  /-- The children that have exited for good. -/
  gone : List Child
  /-- The children whose callback has been called. -/
  callbacks : List Nat
  installs : List Install
  told : List Told

/-- The command line, and what the configuration does with image ids. -/
structure Config where
  onlymethods : Methods
  parentmethods : Methods
  mirrormode : Bool
  canredirect : Bool
  usechildauth : Bool
  fetchfromabove : Bool
  ifaceip : Nat
  canonicalize : ImageId → Option ImageId
  mirror : mirrormode = true → fetchfromabove = true

/-- How the server stops, or breaks. -/
inductive Stop
  | assertion
  | fatal
  | overflow
deriving DecidableEq

def assert (p : Bool) : Except Stop Unit := if p then .ok () else .error .assertion

/-- An image that a host may access. -/
structure Access where
  imageid : ImageId
  issigfile : Bool
  /-- The configuration can look the file up, if there is one. -/
  found : Bool
  get_methods : Methods
  put_maxsize : Nat
  /-- The old version of a file is kept, so an upload goes to a temporary file. -/
  put_oldversion : Bool

/-- What the configuration says about an image. -/
structure ImageInfo where
  imageid : ImageId
  flags : BitVec 16
  sig : Option Int
  get_methods : Methods
  put_maxsize : Nat
  put_oldversion : Bool

/-- The configuration looks the file up. -/
def imageInfo (s : Master) (a : Access) : ImageInfo :=
  let flags := if a.issigfile then CONFIG_PATH_ISSIGFILE else CONFIG_PATH_ISFILE
  let file := if a.found then s.files a.imageid else none
  { imageid := a.imageid
    flags := if file.isSome then flags ||| CONFIG_PATH_EXISTS ||| CONFIG_SIG_ISMTIME else flags
    sig := file.map (·.mtime)
    get_methods := a.get_methods
    put_maxsize := a.put_maxsize
    put_oldversion := a.put_oldversion }

/-- A multicast address with a range of ports, made from the next index. -/
structure Address where
  addr : Nat
  loport : Nat
  hiport : Nat
deriving DecidableEq

/-- The method that is chosen among some. -/
def serverMethod (methods : Methods) : Option Methods :=
  if methods &&& MS_METHOD_MULTICAST ≠ 0 then some MS_METHOD_MULTICAST
  else if methods &&& MS_METHOD_UNICAST ≠ 0 then some MS_METHOD_UNICAST
  else if methods &&& MS_METHOD_BROADCAST ≠ 0 then some MS_METHOD_BROADCAST
  else none

/-- `config_get_server_address`: on a retry only a multicast address is a new one. -/
def getServerAddress (methods : Methods) (first : Bool) (addr : Nat) (index : Option Address) :
    Option (Address × Methods) :=
  index.bind fun a => (serverMethod methods).map fun method =>
    ({ a with
        addr := if method = MS_METHOD_MULTICAST then a.addr
          else if !first then addr
          else if method = MS_METHOD_UNICAST then 0 else INADDR_BROADCAST },
      method)

def Child.matches (ci : Child) (imageid : ImageId) (ptype : PType) (methods : Methods) : Bool :=
  ci.ptype = ptype && ci.method &&& methods ≠ 0 && ci.imageid = imageid

/-- Which of two matching children is the better one. -/
def better (bestci : Option Child) (ci : Child) : Except Stop (Option Child) :=
  match bestci with
  | none => .ok (some ci)
  | some best =>
    if ci.method = MS_METHOD_BROADCAST then .ok (some ci)
    else if ci.method = MS_METHOD_MULTICAST ∧ best.method = MS_METHOD_UNICAST then .ok (some ci)
    else .error .fatal

def findLoop (imageid : ImageId) (ptype : PType) (methods : Methods) :
    Option Child → List Child → Except Stop (Option Child)
  | bestci, [] => .ok bestci
  | bestci, ci :: rest =>
    if ci.matches imageid ptype methods then
      better bestci ci >>= fun bestci => findLoop imageid ptype methods bestci rest
    else findLoop imageid ptype methods bestci rest

def findchild (cfg : Config) (children : List Child) (imageid : ImageId) (ptype : PType)
    (methods : Methods) : Except Stop (Option Child) := do
  assert (ptype = .uploader || methods &&& ~~~cfg.onlymethods = 0)
  findLoop imageid ptype methods none children

/-- Put a child at the head of the list. -/
def Master.add (s : Master) (ci : Child) : Master :=
  { s with children := ci :: s.children, nchildren := s.nchildren + 1 }

/-- Fork off the process: `fork` is the new one's pid, which no other child has. -/
def startchild (s : Master) (ci : Child) (fork : Option Nat) : Option Master :=
  match fork with
  | none => none
  | some pid =>
    if s.children.any fun c => c.pid = pid then none
    else some (s.add { ci with pid := pid })

/-! ## Section 2: Children that exit -/

/-- A child that `waitpid` reports: how it exited, what would happen on a restart, and what
    becomes of the file that it has transferred. -/
structure Wait where
  pid : Nat
  status : Nat
  address : Option Address
  fork : Option Nat
  file : File
  backedup : Bool
  renamed : Bool
  restored : Bool

def WEXITSTATUS (status : Nat) : Nat := status / 256 % 256

def Master.served (s : Master) (imageid : ImageId) : Bool :=
  s.children.any fun c => c.ptype = .server && c.imageid = imageid

def Master.install (s : Master) (ci : Child) (w : Wait) (file : File) : Master :=
  { s with
    files := Function.update s.files ci.imageid (some file)
    installs := ⟨ci.imageid, w.status, s.served ci.imageid⟩ :: s.installs }

def Master.remove (s : Master) (ci : Child) : Master :=
  { s with files := Function.update s.files ci.imageid none }

/-- Move a new version into place, and the old one back where that fails. -/
def moveIntoPlace (s : Master) (ci : Child) (w : Wait) (file : File) : Master :=
  if w.renamed then s.install ci w file
  else if w.backedup && !w.restored then s.remove ci
  else s

def finishclient (s : Master) (ci : Child) (w : Wait) : Except Stop Master :=
  match ci.extra with
  | some (.client sig _) =>
    if w.status ≠ 0 then .ok s
    else
      let mtime := sig.getD 0
      .ok (moveIntoPlace s ci w (if 0 < mtime then { w.file with mtime := mtime } else w.file))
  | _ => .error .assertion

def finishupload (s : Master) (ci : Child) (w : Wait) : Except Stop Master :=
  match ci.extra with
  | some (.upload realname mtime) =>
    if w.status ≠ 0 then .ok (if realname then s else s.remove ci)
    else
      let file := if mtime ≠ 0 then { w.file with mtime := mtime } else w.file
      -- without a place for the old version the file has been written directly
      .ok (if realname then moveIntoPlace s ci w file else s.install ci w file)
  | _ => .error .assertion

def Master.callback (s : Master) (ci : Child) : Master := { s with callbacks := ci.id :: s.callbacks }

def done (s : Master) (ci : Child) (w : Wait) : Except Stop Master :=
  match ci.ptype with
  | .server => .ok s
  | .client => finishclient (s.callback ci) ci w
  | .uploader => finishupload (s.callback ci) ci w

/-- What became of a child that was waited for. -/
inductive Reaped
  | notOurs
  | restarted (pid : Nat)
  | finished
deriving DecidableEq

/-- A child on its next port. -/
def Child.retry (ci : Child) (s : Master) (a : Address) (method : Methods) : Child :=
  { ci with
    retries := ci.retries - 1, addr := a.addr, loport := a.loport, hiport := a.hiport, method := method
    reads := if ci.ptype = .server then s.files ci.imageid else none }

/-- Try a server or an uploader again on another port. -/
def restart (s : Master) (ci : Child) (w : Wait) : Option Master :=
  if 0 < ci.retries ∧ WEXITSTATUS w.status = EADDRINUSE ∧ ci.ptype ≠ .client then
    match getServerAddress ci.method false ci.addr w.address with
    | none => none
    | some (a, method) => startchild s (ci.retry s a method) w.fork
  else none

/-- Take a child out of the list. -/
def Master.unlink (s : Master) (pid : Nat) : Master :=
  { s with children := s.children.eraseP fun c => c.pid = pid, nchildren := s.nchildren - 1 }

def Master.bury (s : Master) (ci : Child) : Master := { s with gone := ci :: s.gone }

/-- One child that has exited. -/
def reapOne (s : Master) (w : Wait) : Except Stop (Master × Reaped) :=
  match s.children.find? fun c => c.pid = w.pid with
  | none => .ok (s, .notOurs)
  | some ci =>
    match restart (s.unlink w.pid) ci w with
    | some s => .ok (s, .restarted (w.fork.getD 0))
    | none => do
      let s ← done (s.unlink w.pid) ci w
      return (s.bury ci, .finished)

/-- Wait for one child, which may be restarted: whether it has exited. -/
def reapPid (s : Master) (wpid : Nat) : List Wait → Except Stop (Master × Bool)
  | [] => .ok (s, false)
  | w :: waits =>
    if w.pid ≠ wpid then .ok (s, false)
    else do
      let (s, reaped) ← reapOne s w
      match reaped with
      | .notOurs => return (s, false)
      | .restarted pid => reapPid s pid waits
      | .finished => return (s, true)

/-- `reapchildren` for the child that has just been started. -/
def reapchild (s : Master) (wpid : Nat) (waits : List Wait) : Except Stop (Master × Bool) :=
  if s.nchildren = 0 then do
    assert s.children.isEmpty
    return (s, false)
  else reapPid s wpid waits

/-- One turn of `reapchildren` in the main loop. -/
def reap (s : Master) (w : Wait) : Except Stop Master :=
  if s.nchildren = 0 then do
    assert s.children.isEmpty
    return s
  else do
    let (s, _) ← reapOne s w
    return s

/-! ## Section 3: Starting children -/

def startserver (cfg : Config) (s : Master) (ii : ImageInfo) (meaddr youaddr : Nat) (methods : Methods)
    (index : Option Address) (fork : Option Nat) : Except Stop (Option (Master × Child)) := do
  let ci ← findchild cfg s.children ii.imageid .server methods
  assert ci.isNone
  match getServerAddress methods true 0 index with
  | none => return none
  | some (a, method) =>
    let ci : Child :=
      { id := s.next, imageid := ii.imageid, ptype := .server, method := method, pid := fork.getD 0
        retries := FRISBEE_RETRIES, servaddr := meaddr
        -- a unicast server is given the address of its client
        addr := if method = MS_METHOD_UNICAST then youaddr else a.addr
        loport := a.loport, hiport := a.hiport, extra := none, reads := s.files ii.imageid }
    return (startchild { s with next := s.next + 1 } ci fork).map fun s => (s, ci)

def startclient (cfg : Config) (s : Master) (ii : ImageInfo) (servaddr addr port : Nat) (methods : Methods)
    (extra : Extra) (fork : Option Nat) : Except Stop (Option (Master × Child)) := do
  let ci ← findchild cfg s.children ii.imageid .client methods
  assert ci.isNone
  let ci : Child :=
    { id := s.next, imageid := ii.imageid, ptype := .client, method := methods, pid := fork.getD 0
      retries := 0, servaddr := servaddr, addr := addr, loport := port, hiport := port
      extra := some extra, reads := none }
  return (startchild { s with next := s.next + 1 } ci fork).map fun s => (s, ci)

def startuploader (cfg : Config) (s : Master) (ii : ImageInfo) (meaddr youaddr : Nat) (mtime : Int)
    (index : Option Address) (fork : Option Nat) : Except Stop (Option (Master × Child)) := do
  let ci ← findchild cfg s.children ii.imageid .uploader MS_METHOD_ANY
  assert ci.isNone
  match getServerAddress MS_METHOD_UNICAST true 0 index with
  | none => return none
  | some (a, method) =>
    let ci : Child :=
      { id := s.next, imageid := ii.imageid, ptype := .uploader, method := method, pid := fork.getD 0
        retries := FRISBEE_RETRIES, servaddr := meaddr, addr := youaddr, loport := a.loport
        hiport := a.hiport, extra := some (.upload ii.put_oldversion mtime), reads := none }
    return (startchild { s with next := s.next + 1 } ci fork).map fun s => (s, ci)

/-! ## Section 4: Requests -/

/-- A reply of the parent, or of this master server, to a GET request. -/
structure GetReply where
  method : Methods
  isrunning : Bool
  error : Nat
  servaddr : Nat
  addr : Nat
  port : Nat
  /-- The modification time, where it is the signature. -/
  sig : Option Int
  size : Nat
deriving DecidableEq

/-- A reply before anything has been filled in. -/
def GetReply.empty : GetReply := ⟨0, false, 0, 0, 0, 0, none, 0⟩

def GetReply.fail (reply : GetReply) (error : Nat) : GetReply := { reply with error := error }

structure GetRequest where
  /-- The host that the request is for: zero for the sender. -/
  hostip : Nat
  methods : Methods
  status : Bool
  idlen : Nat
  /-- The image id, as the message has it. -/
  imageid : Vector (BitVec 8) MS_MAXIDLEN

/-- The methods of a request that this master server supports. -/
def GetRequest.wanted (r : GetRequest) (cfg : Config) : Methods := r.methods &&& cfg.onlymethods

/-- What a request finds outside of the master server. -/
structure Environment where
  cip : Nat
  /-- The address that it has been sent to. -/
  sip : Nat
  /-- What the configuration says: an error, or an image, and whether there are more. -/
  auth : Except Nat (Access × Bool)
  /-- The parent's answer to the request of a mirror. -/
  mirror : Option GetReply
  parentStatus : Option GetReply
  /-- The parent's answer to a request for the image. -/
  parentGet : Option GetReply
  /-- The file can be looked up, and it is a regular one. -/
  stat : Bool
  regular : Bool
  errno : Nat
  clientFork : Option Nat
  /-- The address and the process of a server or an uploader. -/
  index : Option Address
  fork : Option Nat
  /-- What has become of it after two seconds, and the port that it has chosen. -/
  waits : List Wait
  port : Option Nat
  now : Int

/-- Copy the image id out of the message: it and the buffer are not longer than that. -/
def copyId (idlen : Nat) (imageid : Vector (BitVec 8) MS_MAXIDLEN) : Except Stop ImageId :=
  if MS_MAXIDLEN < idlen then .error .overflow
  else .ok ((imageid.toList.take idlen).takeWhile (· ≠ 0))

/-- Use the canonical name, which is copied into the same buffer. -/
def canonicalId (cfg : Config) (imageid : ImageId) : Except Stop ImageId :=
  match cfg.canonicalize imageid with
  | none => .ok imageid
  | some cimageid => if MS_MAXIDLEN < cimageid.length then .error .overflow else .ok cimageid

abbrev ENOENT : Nat := 2
abbrev EIO : Nat := 5

def noImage (errno : Nat) : Nat :=
  if errno = ENOENT then MS_ERROR_NOIMAGE
  else if errno = EIO then MS_ERROR_INVALID
  else if errno = 0 then MS_ERROR_TRYAGAIN
  else MS_ERROR_INVALID

/-- The methods that the parent is asked for. -/
def fetchMethods (cfg : Config) (ii : ImageInfo) : Methods := ii.get_methods &&& cfg.parentmethods

/-- Point a host at the parent, where that is allowed, or tell it to try again. -/
def redirect (cfg : Config) (ci : Child) (reply : GetReply) : Nat × GetReply :=
  if !cfg.canredirect then (MS_ERROR_TRYAGAIN, reply)
  else if ci.method = MS_METHOD_UNICAST then (MS_ERROR_TRYAGAIN, reply)
  else (0, { GetReply.empty with
    method := ci.method, servaddr := ci.servaddr, addr := ci.addr, port := ci.loport })

/-- `fetch_parent`: ask the parent for the status of an image, or fetch the image from it. There
    is an error code, and what the parent says. -/
def fetchParent (cfg : Config) (s : Master) (ii : ImageInfo) (authip : Nat) (statusonly : Bool)
    (answer : Option GetReply) (fork : Option Nat) : Except Stop (Master × Nat × GetReply) := do
  let methods := fetchMethods cfg ii
  if methods = 0 then return (s, MS_ERROR_NOMETHOD, .empty)
  else
    match ← findchild cfg s.children ii.imageid .client methods with
    | some ci =>
      -- a fetch is in progress; only the access of another host is checked again
      if authip ≠ 0 ∧ answer.isNone then return (s, MS_ERROR_NOIMAGE, .empty)
      else if authip ≠ 0 ∧ (answer.getD .empty).error ≠ 0 then
        return (s, (answer.getD .empty).error, .empty)
      else
        match ci.extra with
        | some (.client sig size) =>
          let reply := { GetReply.empty with sig := sig, size := size }
          if statusonly then return (s, 0, reply) else return (s, redirect cfg ci reply)
        | _ => throw .assertion
    | none =>
      match answer with
      | none => return (s, MS_ERROR_NOIMAGE, .empty)
      | some answer =>
        if answer.error ≠ 0 then return (s, answer.error, .empty)
        else
          let reply := { GetReply.empty with sig := answer.sig, size := answer.size }
          if statusonly then return (s, 0, reply)
          else
            match ← startclient cfg s ii answer.servaddr answer.addr answer.port answer.method
              (.client answer.sig answer.size) fork with
            | none => return (s, MS_ERROR_FAILED, reply)
            | some (s, ci) => return (s, redirect cfg ci reply)

structure Located where
  ii : ImageInfo
  /-- The size of the local copy: zero if there is none. -/
  isize : Nat
  reply : GetReply
  /-- The image has to be fetched from the parent. -/
  getfromparent : Bool

def Environment.host (env : Environment) (hostip : Nat) : Nat := if hostip ≠ 0 then hostip else env.cip

/-- The host that the parent is to authorize. -/
def Environment.authip (env : Environment) (cfg : Config) (hostip : Nat) : Nat :=
  if cfg.usechildauth then env.host hostip else 0

def localCopy (s : Master) (env : Environment) (ii : ImageInfo) : Option File :=
  if ii.flags &&& CONFIG_PATH_EXISTS ≠ 0 ∧ env.stat = true then s.files ii.imageid else none

/-- See if there is a local copy, and whether it is up to date. -/
def locate (cfg : Config) (s : Master) (r : GetRequest) (env : Environment) (ii : ImageInfo) :
    Except Stop (GetReply ⊕ Located) := do
  let mirror := env.mirror.getD .empty
  match localCopy s env ii with
  | some file =>
    if !env.regular then return .inl (GetReply.empty.fail MS_ERROR_INVALID)
    else if cfg.mirrormode ∧ mirror.sig.isSome ∧ mirror.sig ≠ some file.mtime then
      let reply := { GetReply.empty with sig := mirror.sig, size := mirror.size }
      if r.status then return .inl reply else return .inr ⟨ii, file.size, reply, true⟩
    else return .inr ⟨ii, file.size, .empty, false⟩
  | none =>
    if cfg.fetchfromabove then
      if cfg.mirrormode then
        let reply := { GetReply.empty with sig := mirror.sig, size := mirror.size }
        if r.status then return .inl reply else return .inr ⟨ii, 0, reply, true⟩
      else
        let (_, rv, status) ← fetchParent cfg s ii (env.authip cfg r.hostip) true env.parentStatus none
        if rv ≠ 0 then return .inl (GetReply.empty.fail rv)
        else
          let reply := { GetReply.empty with sig := status.sig, size := status.size }
          if r.status then return .inl reply else return .inr ⟨ii, 0, reply, true⟩
    else return .inl (GetReply.empty.fail (noImage env.errno))

/-- The answer to localhost, which may ask for any running server. -/
def answerLocal (cfg : Config) (s : Master) (r : GetRequest) (env : Environment) (imageid : ImageId) :
    Except Stop (Option Child) :=
  if r.status ∧ env.cip = INADDR_LOOPBACK ∧ env.host r.hostip = INADDR_LOOPBACK then
    findchild cfg s.children imageid .server (r.wanted cfg)
  else .ok none

/-- The image that a host may access. -/
def accessImage (s : Master) (env : Environment) : Except Stop (Nat ⊕ ImageInfo) :=
  match env.auth with
  | .error rv => .ok (.inl rv)
  | .ok (a, more) =>
    if more then .ok (.inl MS_ERROR_INVALID)
    else do
      assert ((imageInfo s a).flags &&& (CONFIG_PATH_ISFILE ||| CONFIG_PATH_ISSIGFILE) ≠ 0)
      return .inr (imageInfo s a)

/-- Who asks for what: the first part of `handle_get`. -/
def accessRequest (cfg : Config) (s : Master) (r : GetRequest) (env : Environment) :
    Except Stop (GetReply ⊕ ImageInfo) := do
  let imageid ← copyId r.idlen r.imageid
  if r.wanted cfg = 0 then return .inl (GetReply.empty.fail MS_ERROR_NOMETHOD)
  else
    let imageid ← canonicalId cfg imageid
    if cfg.mirrormode ∧ env.mirror.isNone then return .inl (GetReply.empty.fail MS_ERROR_NOIMAGE)
    else if cfg.mirrormode ∧ (env.mirror.getD .empty).error ≠ 0 then
      return .inl (GetReply.empty.fail (env.mirror.getD .empty).error)
    else
      match ← answerLocal cfg s r env imageid with
      | some ci =>
        return .inl { GetReply.empty with
          method := ci.method, isrunning := true, addr := ci.addr, port := ci.loport }
      | none =>
        match ← accessImage s env with
        | .inl rv => return .inl (GetReply.empty.fail rv)
        | .inr ii =>
          match ← findchild cfg s.children ii.imageid .uploader MS_METHOD_UNICAST with
          | some _ => return .inl (GetReply.empty.fail MS_ERROR_TRYAGAIN)
          | none => return .inr ii

/-- Fetch the image from the parent: there is a reply, or the local copy is to be used. -/
def fetch (cfg : Config) (s : Master) (r : GetRequest) (env : Environment) (l : Located) :
    Except Stop (Master × Option GetReply) := do
  if !l.getfromparent then return (s, none)
  else
    let (s, rv, reply) ← fetchParent cfg s l.ii (env.authip cfg r.hostip) false env.parentGet env.clientFork
    if rv = 0 ∧ reply.method &&& r.wanted cfg ≠ 0 then
      return (s, some { l.reply with
        method := reply.method, isrunning := true, servaddr := reply.servaddr, addr := reply.addr
        port := reply.port })
    else
      let rv := if rv = 0 then MS_ERROR_TRYAGAIN else rv
      if rv ≠ MS_ERROR_TRYAGAIN ∧ 0 < l.isize then return (s, none)
      else return (s, some (l.reply.fail rv))

def setPort (s : Master) (id port : Nat) : Master :=
  { s with children := s.children.map fun c => if c.id = id then { c with loport := port, hiport := port } else c }

/-- `getaddrchild`, where a child had to choose its port: it may have reported it. -/
def getaddrchild (s : Master) (ci : Child) (port : Option Nat) : Option Master :=
  if ci.loport = 0 ∨ ci.loport ≠ ci.hiport then
    match port with
    | some p => if 0 < p then some (setPort s ci.id (p % 2 ^ 16)) else none
    | none => none
  else some s

def Master.child (s : Master) (id : Nat) : Except Stop Child :=
  match s.children.find? fun c => c.id = id with
  | some ci => .ok ci
  | none => .error .assertion

/-- See whether a child that has been started stays, and at which port. -/
def settle (s : Master) (ci : Child) (env : Environment) : Except Stop (Master × Option Child) := do
  let (s, exited) ← reapchild s ci.pid env.waits
  if exited then return (s, none)
  else
    let ci ← s.child ci.id
    match getaddrchild s ci env.port with
    | none => return (s, none)
    | some s =>
      let ci ← s.child ci.id
      return (s, some ci)

/-- The reply that names a running server. -/
def running (s : Master) (ci : Child) (l : Located) : Master × GetReply :=
  let reply := { l.reply with
    sig := l.ii.sig.or l.reply.sig, size := l.isize, method := ci.method, isrunning := true
    servaddr := ci.servaddr, addr := if ci.method = MS_METHOD_UNICAST then ci.servaddr else ci.addr
    port := ci.loport }
  ({ s with told := ⟨ci.reads, reply.size, reply.sig⟩ :: s.told }, reply)

/-- Find a server for the local copy, or start one. -/
def serve (cfg : Config) (s : Master) (r : GetRequest) (env : Environment) (l : Located) :
    Except Stop (Master × GetReply) := do
  let methods := r.wanted cfg &&& l.ii.get_methods
  if methods = 0 then return (s, l.reply.fail MS_ERROR_NOMETHOD)
  else
    match ← findchild cfg s.children l.ii.imageid .server methods with
    | some ci =>
      if !r.status ∧ ci.method = MS_METHOD_UNICAST then return (s, l.reply.fail MS_ERROR_TRYAGAIN)
      else
        assert (l.ii.sig.isNone || l.ii.flags &&& CONFIG_SIG_ISMTIME ≠ 0)
        return running s ci l
    | none =>
      assert (l.ii.sig.isNone || l.ii.flags &&& CONFIG_SIG_ISMTIME ≠ 0)
      let reply := { l.reply with sig := l.ii.sig.or l.reply.sig }
      if r.status then return (s, { reply with method := methods, size := l.isize })
      else if env.sip = INADDR_LOOPBACK ∧ cfg.ifaceip = INADDR_ANY then
        return (s, reply.fail MS_ERROR_FAILED)
      else
        let myaddr := if env.sip = INADDR_LOOPBACK then cfg.ifaceip else env.sip
        match ← startserver cfg s l.ii myaddr env.cip methods env.index env.fork with
        | none => return (s, reply.fail MS_ERROR_FAILED)
        | some (s, ci) =>
          match ← settle s ci env with
          | (s, none) => return (s, reply.fail MS_ERROR_TRYAGAIN)
          | (s, some ci) => return running s ci l

def handleGet (cfg : Config) (s : Master) (r : GetRequest) (env : Environment) :
    Except Stop (Master × GetReply) := do
  match ← accessRequest cfg s r env with
  | .inl reply => return (s, reply)
  | .inr ii =>
    match ← locate cfg s r env ii with
    | .inl reply => return (s, reply)
    | .inr l =>
      match ← fetch cfg s r env l with
      | (s, some reply) => return (s, reply)
      | (s, none) => serve cfg s r env l

structure PutRequest where
  hostip : Nat
  status : Bool
  idlen : Nat
  imageid : Vector (BitVec 8) MS_MAXIDLEN
  size : Nat
  mtime : Nat
  timeout : Nat

structure PutReply where
  error : Nat
  addr : Nat
  port : Nat
  exist : Bool
  sig : Option Int
  size : Nat
  maxsize : Nat
deriving DecidableEq

def PutReply.empty : PutReply := ⟨0, 0, 0, false, none, 0, 0⟩

def PutReply.fail (reply : PutReply) (error : Nat) : PutReply := { reply with error := error }

/-- The first child of the image that excludes an upload. -/
def conflict (cfg : Config) (s : Master) (imageid : ImageId) : Except Stop (Option Child) := do
  match ← findchild cfg s.children imageid .server cfg.onlymethods with
  | some ci => return some ci
  | none =>
    match ← findchild cfg s.children imageid .client cfg.onlymethods with
    | some ci => return some ci
    | none => findchild cfg s.children imageid .uploader MS_METHOD_UNICAST

/-- Receive the image, unless it is in use. -/
def receive (cfg : Config) (s : Master) (r : PutRequest) (env : Environment) (ii : ImageInfo) :
    Except Stop (Master × PutReply) := do
  match ← conflict cfg s ii.imageid with
  | some _ => return (s, PutReply.empty.fail MS_ERROR_TRYAGAIN)
  | none =>
    let file := localCopy s env ii
    if file.isSome ∧ env.regular = false then return (s, PutReply.empty.fail MS_ERROR_INVALID)
    else
      assert (file.isNone || ii.sig.isNone || ii.flags &&& CONFIG_SIG_ISMTIME ≠ 0)
      let reply := { PutReply.empty with
        exist := file.isSome, size := (file.map (·.size)).getD 0, sig := file.bind fun _ => ii.sig
        maxsize := ii.put_maxsize }
      if r.status then return (s, reply)
      else
        match ← startuploader cfg s ii env.sip env.cip r.mtime env.index env.fork with
        | none => return (s, reply.fail MS_ERROR_FAILED)
        | some (s, ci) =>
          match ← settle s ci env with
          -- an uploader without a port: its error is written over the address of the reply
          | (s, none) =>
            if s.children.any fun c => c.id = ci.id then return (s, { reply with addr := 0x07000000 })
            else return (s, reply.fail MS_ERROR_TRYAGAIN)
          | (s, some ci) => return (s, { reply with addr := ci.servaddr, port := ci.loport })

def handlePut (cfg : Config) (s : Master) (r : PutRequest) (env : Environment) :
    Except Stop (Master × PutReply) := do
  let imageid ← copyId r.idlen r.imageid
  let _ ← canonicalId cfg imageid
  if cfg.mirrormode then return (s, PutReply.empty.fail MS_ERROR_NOTIMPL)
  else
    match ← accessImage s env with
    | .inl rv => return (s, PutReply.empty.fail rv)
    | .inr ii =>
      if ii.put_maxsize < r.size then
        return (s, { PutReply.empty with error := MS_ERROR_TOOBIG, maxsize := ii.put_maxsize })
      else if r.mtime ≠ 0 ∧ env.now + 10 < r.mtime then
        return (s, PutReply.empty.fail MS_ERROR_BADMTIME)
      else receive cfg s r env ii

/-! ## Section 5: The master server -/

abbrev MS_MSGTYPE_GETREQUEST : BitVec 32 := 1
abbrev MS_MSGTYPE_PUTREQUEST : BitVec 32 := 3

/-- The sizes of a header, and of the bodies of requests. -/
abbrev sizeofHdr : Nat := 8
abbrev sizeofGetRequest : Nat := 264
abbrev sizeofPutRequest : Nat := 279

/-- What `read` leaves in the buffer for a message. -/
structure Message where
  /-- How many bytes were read, as a `size_t`: a failed read counts as very many. -/
  cc : Nat
  type : BitVec 32
  /-- The body, taken as a request of either type. -/
  getrequest : GetRequest
  putrequest : PutRequest

def handleRequest (cfg : Config) (s : Master) (msg : Message) (env : Environment) : Except Stop Master :=
  if msg.cc < sizeofHdr then .ok s
  else if msg.type = MS_MSGTYPE_GETREQUEST then
    if msg.cc < sizeofHdr + sizeofGetRequest then .ok s
    else (handleGet cfg s msg.getrequest env).map (·.1)
  else if msg.type = MS_MSGTYPE_PUTREQUEST then
    if msg.cc < sizeofHdr + sizeofPutRequest then .ok s
    else (handlePut cfg s msg.putrequest env).map (·.1)
  else .ok s

/-- What happens to the master server. -/
inductive Event
  | request (msg : Message) (env : Environment)
  | exit (w : Wait)

def step (cfg : Config) (s : Master) : Event → Except Stop Master
  | .request msg env => handleRequest cfg s msg env
  | .exit w => reap s w

/-- The master server as a machine that may stop. -/
def machine (cfg : Config) (s : Master) (e : Event) : Option Master := (step cfg s e).toOption

/-- The master server when it has been started. -/
def Master.init (files : ImageId → Option File) : Master :=
  { children := [], nchildren := 0, files := files, next := 0, gone := [], callbacks := [], installs := []
    told := [] }

end Emulab.Frisbee.MasterServer
