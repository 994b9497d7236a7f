import Emulab.Lib.MachineInt

/-! # The HMAC of a notification

  A notification is signed by an HMAC over its attributes, which is added as
  one more attribute and compared when the notification arrives. What goes
  into the HMAC is the values alone, one after the other.
-/

namespace Emulab.Event

open MachineInt List

/-! ## Section 1: Notifications -/

/-- The bytes of a C string. -/
structure CString where
  bytes : List Byte
  terminated : 0 ∉ bytes
deriving DecidableEq

/-- A `pubsub_value_t` of each `pubsub_type_t`. A double is given by its bits. -/
inductive Value where
  | INT32 (v : BitVec 32)
  | INT64 (v : BitVec 64)
  | REAL64 (bits : BitVec 64)
  | STRING (s : CString)
  | OPAQUE (data : List Byte)
deriving DecidableEq

structure Attribute where
  name : String
  value : Value
deriving DecidableEq

structure Notification where
  /-- The attributes, in the order in which `pubsub_notification_traverse` visits them. -/
  attributes : List Attribute
  has_hmac : Bool
deriving DecidableEq

/-- The `n` bytes of an integer in memory, the least one first. -/
def memory (n : Nat) (v : BitVec w) : List Byte :=
  (List.range n).map fun i => v.extractLsb' (8 * i) 8

/-- The bytes of a value that are given to `HMAC_Update`. -/
def Value.bytes : Value → List Byte
  | .INT32 v => memory 4 v
  | .INT64 v => memory 8 v
  | .REAL64 bits => memory 8 bits
  | .STRING s => s.bytes
  | .OPAQUE data => data

/-- The attributes that are never included in the HMAC. -/
def excluded (name : String) : Bool :=
  name = "__hmac__" ∨ name = "__elvin_hmac__" ∨ name = "___elvin_ordered___"

def hmac_traverse (a : Attribute) : List Byte := if excluded a.name then [] else a.value.bytes

/-- All that goes into the HMAC. -/
def fed (attributes : List Attribute) : List Byte := attributes.flatMap hmac_traverse

/-! ## Section 2: Signing and checking -/

def EVP_MAX_MD_SIZE : Nat := 64

structure Key where
  hmac : List Byte → List Byte
  short : ∀ bytes, (hmac bytes).length ≤ EVP_MAX_MD_SIZE

/-- How the library has been compiled: with `ELVIN_COMPAT`, `elvin_traverse` gives the attributes in
    the order of the hash table of elvin, or fails. -/
structure Build where
  elvin_traverse : Option (List Attribute → Option (List Attribute))

def Notification.remove (n : Notification) (name : String) : Notification :=
  { n with attributes := n.attributes.filter fun a => a.name ≠ name }

def Notification.add (n : Notification) (name : String) (value : Value) : Notification :=
  { n with attributes := n.attributes ++ [⟨name, value⟩] }

/-- `pubsub_notification_get_opaque` -/
def Notification.getOpaque (n : Notification) (name : String) : Option (List Byte) :=
  n.attributes.findSome? fun a =>
    match a.value with
    | .OPAQUE data => if a.name = name then some data else none
    | _ => none

/-- `pubsub_notification_get_int32` -/
def Notification.getInt32 (n : Notification) (name : String) : Option (BitVec 32) :=
  n.attributes.findSome? fun a =>
    match a.value with
    | .INT32 v => if a.name = name then some v else none
    | _ => none

def event_notification_insert_hmac (B : Build) (K : Key) (n : Notification) : Notification :=
  let n := if n.has_hmac then n.remove "__hmac__" else n
  let n := n.remove "___elvin_ordered___"
  let mac := K.hmac (fed n.attributes)
  let n := n.add "__hmac__" (.OPAQUE mac)
  let n := if B.elvin_traverse.isSome then n.add "___elvin_ordered___" (.INT32 1) else n
  { n with has_hmac := true }

/-- The comparison of the HMAC that came with the one over some attributes. -/
def compareHmac (K : Key) (n : Notification) (srcmac : List Byte) (attributes : List Attribute) :
    Int × Notification :=
  if srcmac = K.hmac (fed attributes) then (0, { n with has_hmac := true }) else (1, n)

/-- Return 0 if equal, 1 if they are not, -1 if fatal error. `none` is the failed assertion on the
    length of the HMAC. -/
def event_notification_check_hmac (B : Build) (K : Key) (n : Notification) : Option (Int × Notification) :=
  match n.getOpaque "__hmac__" with
  | none => some (-1, { n with has_hmac := false })
  | some srcmac =>
    if srcmac.length ≤ EVP_MAX_MD_SIZE then
      -- both of these return 0 when the attribute is there
      let elvin := (n.getInt32 "___PUBSUB___").isSome
      let elvin_ordered := (n.getInt32 "___elvin_ordered___").isSome
      match B.elvin_traverse with
      | some elvin_traverse =>
        if elvin ∧ ¬elvin_ordered then
          match elvin_traverse n.attributes with
          | some attributes => some (compareHmac K n srcmac attributes)
          | none => some (-1, n)
        else
          some (compareHmac K n srcmac n.attributes)
      | none => some (compareHmac K n srcmac n.attributes)
    else
      none

/-! ## Section 3: What the HMAC covers -/

/-- The attributes that the HMAC is to cover. -/
def content (attributes : List Attribute) : List Attribute :=
  attributes.filter fun a => ¬excluded a.name

theorem fed_eq (attributes : List Attribute) :
    fed attributes = (content attributes).flatMap fun a => a.value.bytes := by
  induction attributes with
  | nil => rfl
  | cons a attributes ih =>
    unfold fed content at ih ⊢
    rw [flatMap_cons, ih]
    unfold hmac_traverse
    by_cases ha : excluded a.name
    · simp [ha]
    · simp [ha]

/-- Removing an attribute that is left out changes nothing. -/
theorem fed_remove (n : Notification) {name : String} (hname : excluded name = true) :
    fed (n.remove name).attributes = fed n.attributes := by
  have hcontent : content (n.remove name).attributes = content n.attributes := by
    unfold content Notification.remove
    rw [filter_filter]
    apply filter_congr
    intro a _
    by_cases ha : a.name = name
    · simp [ha, hname]
    · simp [ha]
  rw [fed_eq, fed_eq, hcontent]

theorem mem_insert_hmac (B : Build) (K : Key) (n : Notification) :
    ⟨"__hmac__", .OPAQUE (K.hmac (fed n.attributes))⟩ ∈ (event_notification_insert_hmac B K n).attributes := by
  have hfed : fed ((if n.has_hmac then n.remove "__hmac__" else n).remove
      "___elvin_ordered___").attributes = fed n.attributes := by
    rw [fed_remove _ (by decide)]
    split
    · exact fed_remove n (by decide)
    · rfl
  unfold event_notification_insert_hmac
  dsimp only
  rw [hfed]
  split <;> simp [Notification.add]

def Value.type : Value → Nat
  | .INT32 _ => 0
  | .INT64 _ => 1
  | .REAL64 _ => 2
  | .STRING _ => 3
  | .OPAQUE _ => 4

/-- What the HMAC does not tell apart: the name, the type and the length of the value. -/
def Attribute.shape (a : Attribute) : String × Nat × Nat :=
  (a.name, a.value.type, a.value.bytes.length)

theorem memory_inj {w n : Nat} (hw : w = 8 * n) {v v' : BitVec w} (h : memory n v = memory n v') : v = v' := by
  apply BitVec.eq_of_getLsbD_eq
  intro k hk
  have hbyte : v.extractLsb' (8 * (k / 8)) 8 = v'.extractLsb' (8 * (k / 8)) 8 := by
    have hget := congrArg (fun l => l[k / 8]?) h
    simpa [memory, List.getElem?_range (show k / 8 < n by omega)] using hget
  have hbit := congrArg (fun b => b.getLsbD (k % 8)) hbyte
  simp only [BitVec.getLsbD_extractLsb', Nat.mod_lt k (show 8 > 0 by omega), decide_true,
    Bool.true_and, Nat.div_add_mod] at hbit
  exact hbit

theorem Attribute.eq_of_bytes {a a' : Attribute} (hshape : a.shape = a'.shape)
    (hbytes : a.value.bytes = a'.value.bytes) : a = a' := by
  obtain ⟨name, value⟩ := a
  obtain ⟨name', value'⟩ := a'
  unfold Attribute.shape at hshape
  simp only [Prod.mk.injEq] at hshape
  obtain ⟨rfl, htype, -⟩ := hshape
  suffices hvalue : value = value' by rw [hvalue]
  cases value <;> cases value' <;> simp [Value.type] at htype
  · exact congrArg _ (memory_inj (n := 4) rfl hbytes)
  · exact congrArg _ (memory_inj (n := 8) rfl hbytes)
  · exact congrArg _ (memory_inj (n := 8) rfl hbytes)
  · rename_i s s'
    obtain ⟨bytes, _⟩ := s
    obtain ⟨bytes', _⟩ := s'
    obtain rfl : bytes = bytes' := hbytes
    rfl
  · exact congrArg _ hbytes

theorem eq_of_flatMap_bytes {l l' : List Attribute} (hshape : l.map (·.shape) = l'.map (·.shape))
    (hbytes : (l.flatMap fun a => a.value.bytes) = l'.flatMap fun a => a.value.bytes) : l = l' := by
  induction l generalizing l' with
  | nil => exact (map_eq_nil_iff.mp hshape.symm).symm
  | cons a l ih =>
    cases l' with
    | nil => simp at hshape
    | cons a' l' =>
      rw [map_cons, map_cons, List.cons.injEq] at hshape
      rw [flatMap_cons, flatMap_cons] at hbytes
      have hlength : a.value.bytes.length = a'.value.bytes.length := congrArg (·.2.2) hshape.1
      obtain ⟨hhead, htail⟩ := append_inj hbytes hlength
      rw [Attribute.eq_of_bytes hshape.1 hhead, ih hshape.2 htail]

/-- All the bytes of a notification, as the value of one attribute. -/
def lump (name : String) (n : Notification) : Attribute := ⟨name, .OPAQUE (fed n.attributes)⟩

theorem exists_lump (n : Notification) : ∃ name, excluded name = false ∧
    ¬(content [lump name n]).Perm (content n.attributes) := by
  by_cases hperm : (content [lump "OBJNAME" n]).Perm (content n.attributes)
  · refine ⟨"OBJTYPE", by decide, fun hperm' => ?_⟩
    have hboth := hperm'.trans hperm.symm
    have heq : [lump "OBJTYPE" n] = [lump "OBJNAME" n] := perm_singleton.mp hboth
    have hname : "OBJTYPE" = "OBJNAME" := congrArg Attribute.name (singleton_inj.mp heq)
    exact absurd hname (by decide)
  · exact ⟨"OBJNAME", by decide, hperm⟩

/-- The notification of `exists_lump`, with the HMAC of the one it is made from. -/
def forged (K : Key) (name : String) (n : Notification) : Notification where
  attributes := [lump name n, ⟨"__hmac__", .OPAQUE (K.hmac (fed n.attributes))⟩]
  has_hmac := false

theorem fed_forged (K : Key) {name : String} (hname : excluded name = false) (n : Notification) :
    fed (forged K name n).attributes = fed n.attributes := by
  have hmac : excluded "__hmac__" = true := by decide
  simp [forged, fed, hmac_traverse, lump, hname, hmac, Value.bytes]

theorem check_forged (B : Build) (K : Key) {name : String} (hname : excluded name = false) (n : Notification) :
    event_notification_check_hmac B K (forged K name n) = some (0, { forged K name n with has_hmac := true }) := by
  have hne : name ≠ "__hmac__" := by
    rintro rfl
    exact absurd hname (by decide)
  have hmac : (forged K name n).getOpaque "__hmac__" = some (K.hmac (fed n.attributes)) := by
    simp [Notification.getOpaque, forged, lump, hne]
  have helvin : (forged K name n).getInt32 "___PUBSUB___" = none := by
    simp [Notification.getInt32, forged, lump]
  have hcompare : compareHmac K (forged K name n) (K.hmac (fed n.attributes))
      (forged K name n).attributes = (0, { forged K name n with has_hmac := true }) := by
    unfold compareHmac
    rw [fed_forged K hname, if_pos rfl]
  unfold event_notification_check_hmac
  simp only [hmac, helvin, K.short, if_true, hcompare, Option.isSome_none, Bool.false_eq_true, false_and, if_false]
  split <;> rfl

/-- **No notification is protected.** For every notification there is another one with other
    attributes that goes with its HMAC. Only among notifications with the same names, types and
    lengths, in the same order, is one determined by what is fed to the HMAC. -/
theorem hmac_covers_values (B : Build) (K : Key) : (∀ n : Notification, ∃ n' : Notification,
      ¬(content n'.attributes).Perm (content n.attributes) ∧
      fed n'.attributes = fed n.attributes ∧
      (∃ mac, ⟨"__hmac__", .OPAQUE mac⟩ ∈ (event_notification_insert_hmac B K n).attributes ∧
        n'.getOpaque "__hmac__" = some mac) ∧
      event_notification_check_hmac B K n' = some (0, { n' with has_hmac := true })) ∧
    (∀ n n' : Notification, (content n'.attributes).map (·.shape) = (content n.attributes).map (·.shape) →
      fed n'.attributes = fed n.attributes → content n'.attributes = content n.attributes) := by
  constructor
  · intro n
    obtain ⟨name, hname, hperm⟩ := exists_lump n
    have hcontent : content (forged K name n).attributes = content [lump name n] := by
      have hmac : excluded "__hmac__" = true := by decide
      unfold content forged
      rw [filter_cons, filter_cons]
      simp [hmac, lump, hname]
    refine ⟨forged K name n, by rwa [hcontent], fed_forged K hname n, ?_, check_forged B K hname n⟩
    refine ⟨_, mem_insert_hmac B K n, ?_⟩
    have hne : name ≠ "__hmac__" := by
      rintro rfl
      exact absurd hname (by decide)
    simp [Notification.getOpaque, forged, lump, hne]
  · intro n n' hshape hfed
    rw [fed_eq, fed_eq] at hfed
    exact eq_of_flatMap_bytes hshape hfed

/-- A notification with an object name and an event type. -/
def named (objname eventtype : CString) : Notification where
  attributes := [⟨"OBJNAME", .STRING objname⟩, ⟨"EVENTTYPE", .STRING eventtype⟩]
  has_hmac := false

/-- A letter is moved from the object name to the event type. -/
theorem boundary_moves : ∃ n n' : Notification, fed n.attributes = fed n'.attributes ∧
    ¬(content n.attributes).Perm (content n'.attributes) :=
  ⟨named ⟨[97, 83], by decide⟩ ⟨[84], by decide⟩, named ⟨[97], by decide⟩ ⟨[83, 84], by decide⟩,
    by decide, by decide⟩

/-! ## Section 4: Forwarding -/

/-- What is sent: nothing is signed without a key, or if it came with a good HMAC. -/
def event_notify (B : Build) (keydata : Option Key) (n : Notification) : Notification :=
  match keydata with
  | some K => if n.has_hmac then n else event_notification_insert_hmac B K n
  | none => n

/-- What the callback of a subscription is given; `none` if the notification is thrown away, or an
    assertion fails. -/
def notify_callback (B : Build) (keydata : Option Key) (do_auth : Bool) (received : List Attribute) :
    Option Notification :=
  let notification : Notification := ⟨received, false⟩
  match keydata with
  | some K =>
    if do_auth then do
      let (retval, notification) ← event_notification_check_hmac B K notification
      if retval = 0 then some notification else none
    else some notification
  | none => some notification

/-- A program whose callback passes the notification on to another server, as the event proxy does.
    Servers deliver the attributes as they are. -/
structure Forwarder where
  received : Option Key
  do_auth : Bool
  sending : Option Key

def Forwarder.forward (B : Build) (attributes : List Attribute) (f : Forwarder) : Option (List Attribute) := do
  let notification ← notify_callback B f.received f.do_auth attributes
  return (event_notify B f.sending notification).attributes

/-- A notification carries some content: its first HMAC is that of the content, and is not taken for one in
    elvin's order. -/
structure Carries (B : Build) (K : Key) (c : List Attribute) (n : Notification) : Prop where
  content : content n.attributes = c
  mac : n.getOpaque "__hmac__" = some (K.hmac (fed n.attributes))
  ordered : B.elvin_traverse.isSome → (n.getInt32 "___elvin_ordered___").isSome

variable {B : Build} {K : Key} {c : List Attribute} {n : Notification} {keydata : Option Key}

theorem Carries.check (h : Carries B K c n) :
    event_notification_check_hmac B K n = some (0, { n with has_hmac := true }) := by
  have hcompare : compareHmac K n (K.hmac (fed n.attributes)) n.attributes = (0, { n with has_hmac := true }) :=
    if_pos rfl
  unfold event_notification_check_hmac
  rw [h.mac]
  dsimp only
  rw [if_pos (K.short _)]
  split
  · rename_i traverse htraverse
    rw [if_neg, hcompare]
    exact fun hne => hne.2 (h.ordered (by rw [htraverse]; rfl))
  · rw [hcompare]

theorem insert_hmac_attributes (B : Build) (K : Key) (hnew : n.has_hmac = false) :
    (event_notification_insert_hmac B K n).attributes = (n.remove "___elvin_ordered___").attributes ++
      ⟨"__hmac__", .OPAQUE (K.hmac (fed n.attributes))⟩ ::
        if B.elvin_traverse.isSome then [⟨"___elvin_ordered___", .INT32 1⟩] else [] := by
  have hfed := fed_remove n (show excluded "___elvin_ordered___" = true by decide)
  unfold event_notification_insert_hmac
  simp only [hnew, Bool.false_eq_true, if_false, hfed]
  split <;> simp [Notification.add]

theorem getOpaque_remove (n : Notification) {name name' : String} (hne : name ≠ name') :
    (n.remove name).getOpaque name' = n.getOpaque name' := by
  unfold Notification.remove Notification.getOpaque
  induction n.attributes with
  | nil => rfl
  | cons a attributes ih =>
    rw [filter_cons, findSome?_cons]
    split
    · rw [findSome?_cons, ih]
    · rename_i ha
      obtain rfl : a.name = name := by simpa using ha
      rw [ih]
      cases a.value <;> simp only [if_neg hne]

theorem content_insert_hmac (B : Build) (K : Key) (hnew : n.has_hmac = false) :
    content (event_notification_insert_hmac B K n).attributes = content n.attributes := by
  have hmac : excluded "__hmac__" = true := by decide
  have hordered : excluded "___elvin_ordered___" = true := by decide
  have hremove : content (n.remove "___elvin_ordered___").attributes = content n.attributes := by
    unfold content Notification.remove
    rw [filter_filter]
    refine filter_congr fun a _ => ?_
    by_cases ha : a.name = "___elvin_ordered___" <;> simp [ha, hordered]
  unfold content at hremove ⊢
  rw [insert_hmac_attributes B K hnew, filter_append, hremove]
  split <;> simp [hmac, hordered]

/-- A second HMAC under the key is the same as the one that has come before it. -/
theorem carries_insert_hmac (B : Build) (hnew : n.has_hmac = false)
    (hmac : ∀ mac ∈ n.getOpaque "__hmac__", mac = K.hmac (fed n.attributes)) :
    Carries B K (content n.attributes) (event_notification_insert_hmac B K n) := by
  have hattributes := insert_hmac_attributes B K hnew
  refine ⟨content_insert_hmac B K hnew, ?_, fun hB => ?_⟩
  · have hsame := getOpaque_remove n (show "___elvin_ordered___" ≠ "__hmac__" by decide)
    rw [fed_eq, content_insert_hmac B K hnew, ← fed_eq]
    unfold Notification.getOpaque at hsame hmac ⊢
    rw [hattributes, findSome?_append, hsame]
    generalize findSome? _ n.attributes = first at hmac ⊢
    cases first with
    | none => simp
    | some mac => simp [hmac mac rfl]
  · unfold Notification.getInt32
    rw [hattributes, if_pos hB]
    simp

/-- It is delivered, whether it is checked or not. -/
theorem Carries.callback (h : Carries B K c n) (hkey : ∀ K' ∈ keydata, K' = K) (do_auth : Bool) :
    ∃ n', notify_callback B keydata do_auth n.attributes = some n' ∧ Carries B K c n' := by
  have hcheck := Carries.check (n := ⟨n.attributes, false⟩) ⟨h.content, h.mac, h.ordered⟩
  unfold notify_callback
  cases keydata with
  | none => exact ⟨_, rfl, h.content, h.mac, h.ordered⟩
  | some K' =>
    obtain rfl := hkey K' rfl
    dsimp only
    rw [hcheck]
    split <;> exact ⟨_, rfl, h.content, h.mac, h.ordered⟩

/-- It is sent with a good HMAC, whether it is signed again or not. -/
theorem Carries.notify (h : Carries B K c n) (hkey : ∀ K' ∈ keydata, K' = K) :
    Carries B K c (event_notify B keydata n) := by
  unfold event_notify
  cases keydata with
  | none => exact h
  | some K' =>
    obtain rfl := hkey K' rfl
    dsimp only
    split
    · exact h
    · rename_i hnew
      have hsame : ∀ mac ∈ n.getOpaque "__hmac__", mac = K'.hmac (fed n.attributes) := by
        rw [h.mac]
        exact fun mac hmac => (Option.some.inj hmac).symm
      exact h.content ▸ carries_insert_hmac B (Bool.eq_false_of_not_eq_true hnew) hsame

end Emulab.Event
