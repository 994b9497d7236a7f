import Emulab.Lib.Machine

/-! # The subscriptions of the event proxy

  A node hears of the events of an experiment through a subscription with the
  event server of boss. The proxy asks for it when an UPDATE names the
  experiment, and enters it in `exptmap` once the server has answered. What is
  compared here is the table, the subscriptions that the server serves and the
  experiments that the proxy has been told of.
-/

namespace Emulab.Evproxy

open Machine List Option

/-! ## Section 1: The proxy -/

def TBDB_OBJECTTYPE_EVPROXY : String := "EVPROXY"
def TBDB_EVENTTYPE_UPDATE : String := "UPDATE"
def TBDB_EVENTTYPE_CLEAR : String := "CLEAR"
def TBDB_EVENTTYPE_RELOAD : String := "RELOAD"

/-- What the proxy reads of a notification. -/
structure Notification where
  eventtype : String
  objecttype : String
  expt : String
deriving DecidableEq, Repr

/-- A subscription to the events of an experiment: an `event_subscription_t`, by its number and the
    connection that it was asked for on. -/
structure Subscription where
  id : Nat
  expt : String
  handle : Nat
deriving DecidableEq, Repr

structure Proxy where
  /-- The connection to boss, by its number. -/
  bosshandle : Nat
  exptmap : List (String × Subscription)
deriving DecidableEq, Repr

/-- What a callback asks of the event system. -/
inductive Request where
  | subscribe (expt : String)
  | unsubscribe (es : Subscription)
  | scheduleUpdate
  | notify (n : Notification)
deriving DecidableEq, Repr

/-- `exptmap.find(key)` -/
def Proxy.find (p : Proxy) (key : String) : Option Subscription :=
  (p.exptmap.find? fun e => e.1 = key).map Prod.snd

/-- `exptmap.erase(key)` -/
def Proxy.erase (p : Proxy) (key : String) : Proxy :=
  { p with exptmap := p.exptmap.filter fun e => e.1 ≠ key }

/-- `exptmap[key] = es` -/
def Proxy.assign (p : Proxy) (key : String) (es : Subscription) : Proxy :=
  { p with exptmap := (p.erase key).exptmap ++ [(key, es)] }

/-- Handle an event for the proxy. `unsubscribed` says for which subscriptions
    `event_async_unsubscribe` succeeds; what `event_async_subscribe` returns is only logged. -/
def callback (unsubscribed : Subscription → Bool) (p : Proxy) (n : Notification) : Proxy × List Request :=
  if n.objecttype = TBDB_OBJECTTYPE_EVPROXY then
    if n.eventtype = TBDB_EVENTTYPE_UPDATE then
      match p.find n.expt with
      | none => (p, [.subscribe n.expt, .notify n])
      | some _ => (p, [.notify n])
    else if n.eventtype = TBDB_EVENTTYPE_CLEAR then
      match p.find n.expt with
      | none => (p, [.notify n])
      | some tmp => (if unsubscribed tmp then p.erase n.expt else p, [.unsubscribe tmp, .notify n])
    else if n.eventtype = TBDB_EVENTTYPE_RELOAD then
      -- the table is emptied whether or not the subscriptions could be removed
      ({ p with exptmap := [] }, p.exptmap.map (fun e => .unsubscribe e.2) ++ [.scheduleUpdate, .notify n])
    else
      (p, [.notify n])
  else
    (p, [])

/-- Handle an event of an experiment. -/
def expt_callback (n : Notification) : List Request :=
  if n.objecttype ≠ TBDB_OBJECTTYPE_EVPROXY then [.notify n] else []

/-- Handle the answer to a request for a subscription. -/
def subscribe_callback (p : Proxy) (result : Bool) (es : Subscription) : Proxy :=
  if result then p.assign es.expt es else p

/-- The event loop after the connection is lost: the proxy registers anew. -/
def reregister (p : Proxy) : Proxy × List Request :=
  ({ bosshandle := p.bosshandle + 1, exptmap := [] }, [.scheduleUpdate])

/-! ## Section 2: The proxy and the event server -/

structure System where
  proxy : Proxy
  /-- The number of the next request for a subscription. -/
  asked : Nat
  /-- The requests that have not been answered, on this connection or an earlier one. -/
  outstanding : List Subscription
  /-- The subscriptions that are served on the current connection. -/
  live : List Subscription
  /-- The experiments with an UPDATE after the last CLEAR and the last RELOAD. -/
  updated : List String
deriving DecidableEq, Repr

def System.start : System where
  proxy := { bosshandle := 0, exptmap := [] }
  asked := 0
  outstanding := []
  live := []
  updated := []

/-- What the event system does about a request of a callback. A subscription that is given up is
    not called back any more, even if the server has not been told yet. -/
def System.serve (subscribed : Bool) (unsubscribed : Subscription → Bool) (s : System) : Request → System
  | .subscribe expt =>
    if subscribed then
      { s with
        asked := s.asked + 1
        outstanding := s.outstanding ++ [⟨s.asked, expt, s.proxy.bosshandle⟩] }
    else
      s
  | .unsubscribe es => if unsubscribed es then { s with live := s.live.filter (· ≠ es) } else s
  | .scheduleUpdate => s
  | .notify _ => s

/-- The UPDATEs, CLEARs and RELOADs that the proxy has been told. -/
def updates (updated : List String) (n : Notification) : List String :=
  if n.objecttype = TBDB_OBJECTTYPE_EVPROXY then
    if n.eventtype = TBDB_EVENTTYPE_UPDATE then n.expt :: updated
    else if n.eventtype = TBDB_EVENTTYPE_CLEAR then updated.filter (· ≠ n.expt)
    else if n.eventtype = TBDB_EVENTTYPE_RELOAD then []
    else updated
  else updated

inductive Event where
  /-- A notification for the proxy arrives. -/
  | received (n : Notification) (subscribed : Bool) (unsubscribed : Subscription → Bool)
  /-- A request for a subscription is answered. -/
  | completed (es : Subscription) (result : Bool)
  | lost

/-- An answer comes to a request that is outstanding, on whichever connection it was made. -/
def System.step (s : System) : Event → Option System
  | .received n subscribed unsubscribed =>
    let (proxy, requests) := callback unsubscribed s.proxy n
    let s := requests.foldl (System.serve subscribed unsubscribed) s
    some { s with proxy := proxy, updated := updates s.updated n }
  | .completed es result =>
    if es ∈ s.outstanding then
      some { s with
        proxy := subscribe_callback s.proxy result es
        outstanding := s.outstanding.erase es
        live := if result ∧ es.handle = s.proxy.bosshandle then s.live ++ [es] else s.live }
    else
      none
  | .lost => some { s with proxy := (reregister s.proxy).1, live := [] }

/-- What the proxy does with an event of an experiment: every subscription that is served for the
    experiment calls back. -/
def System.forwards (s : System) (n : Notification) : List Request :=
  (s.live.filter fun es => es.expt = n.expt).flatMap fun _ => expt_callback n

/-! ## Section 3: The table shows what is served -/

/-- What is to hold between events. -/
structure Subscribed (s : System) : Prop where
  /-- An experiment has at most one subscription. -/
  once : ∀ expt, (s.live.filter fun es => es.expt = expt).length ≤ 1
  /-- When all requests are answered, the table has the experiments with a subscription. -/
  keys : s.outstanding = [] → ∀ expt, expt ∈ s.proxy.exptmap.map Prod.fst ↔ ∃ es ∈ s.live, es.expt = expt
  updated : s.outstanding = [] → ∀ expt ∈ s.proxy.exptmap.map Prod.fst, expt ∈ s.updated
  /-- An event is passed on at most once. -/
  forwarded : ∀ n, (s.forwards n).length ≤ 1
  /-- An event of an experiment that has been cleared is not passed on. -/
  cleared : s.outstanding = [] → ∀ n, n.expt ∉ s.updated → s.forwards n = []

/-- An event that the table can follow. A subscription is granted while its connection is the
    current one and its experiment has not been cleared, and has none yet; and one that is to be
    given up can be given up. -/
def EventOk (s : System) : Event → Prop
  | .received n _ unsubscribed => n.objecttype = TBDB_OBJECTTYPE_EVPROXY →
    (n.eventtype = TBDB_EVENTTYPE_CLEAR → ∀ e ∈ s.proxy.exptmap, e.1 = n.expt → unsubscribed e.2 = true) ∧
    (n.eventtype = TBDB_EVENTTYPE_RELOAD → ∀ e ∈ s.proxy.exptmap, unsubscribed e.2 = true)
  | .completed es result => result = true →
    es.handle = s.proxy.bosshandle ∧ es.expt ∈ s.updated ∧ es.expt ∉ s.proxy.exptmap.map Prod.fst
  | .lost => True

instance decidableEventOk (s : System) : (e : Event) → Decidable (EventOk s e)
  | .received n _ unsubscribed => inferInstanceAs (Decidable (n.objecttype = TBDB_OBJECTTYPE_EVPROXY →
      (n.eventtype = TBDB_EVENTTYPE_CLEAR → ∀ e ∈ s.proxy.exptmap, e.1 = n.expt → unsubscribed e.2 = true) ∧
      (n.eventtype = TBDB_EVENTTYPE_RELOAD → ∀ e ∈ s.proxy.exptmap, unsubscribed e.2 = true)))
  | .completed es result => inferInstanceAs (Decidable (result = true →
      es.handle = s.proxy.bosshandle ∧ es.expt ∈ s.updated ∧ es.expt ∉ s.proxy.exptmap.map Prod.fst))
  | .lost => isTrue trivial

/-- The table lists the subscriptions that are served. -/
structure Matched (s : System) : Prop where
  live : s.live = s.proxy.exptmap.map Prod.snd
  named : ∀ e ∈ s.proxy.exptmap, e.2.expt = e.1
  nodup : (s.proxy.exptmap.map Prod.fst).Nodup
  updated : ∀ e ∈ s.proxy.exptmap, e.1 ∈ s.updated

theorem matched_start : Matched .start where
  live := rfl
  named := by simp [System.start]
  nodup := nodup_nil
  updated := by simp [System.start]

section

variable {s s' : System} {n : Notification} {sub : Bool} {unsub : Subscription → Bool}

theorem Matched.live_expt (h : Matched s) : s.live.map (·.expt) = s.proxy.exptmap.map Prod.fst := by
  rw [h.live, List.map_map]
  exact map_congr_left h.named

theorem Matched.mem_live (h : Matched s) {expt : String} :
    (∃ es ∈ s.live, es.expt = expt) ↔ expt ∈ s.proxy.exptmap.map Prod.fst := by
  rw [← h.live_expt, List.mem_map]

theorem Matched.once (h : Matched s) (expt : String) : (s.live.filter fun es => es.expt = expt).length ≤ 1 := by
  have hnodup : (s.live.map (·.expt)).Nodup := by
    rw [h.live_expt]
    exact h.nodup
  have hcount := nodup_iff_count_le_one.mp hnodup expt
  rw [count_eq_countP, countP_map, countP_eq_length_filter] at hcount
  refine le_of_eq_of_le ?_ hcount
  congr 1

theorem length_expt_callback_le (n : Notification) : (expt_callback n).length ≤ 1 := by
  unfold expt_callback
  split <;> simp

theorem Matched.subscribed (h : Matched s) : Subscribed s where
  once := h.once
  keys _ _ := h.mem_live.symm
  updated _ expt hexpt := by
    obtain ⟨e, he, rfl⟩ := List.mem_map.mp hexpt
    exact h.updated e he
  forwarded n := by
    unfold System.forwards
    rw [length_flatMap, map_const', sum_replicate, smul_eq_mul]
    exact Nat.mul_le_mul (h.once n.expt) (length_expt_callback_le n)
  cleared _ n hn := by
    unfold System.forwards
    have hnone : s.live.filter (fun es => es.expt = n.expt) = [] := by
      rw [filter_eq_nil_iff]
      intro es hes heq
      obtain ⟨e, he, hname⟩ := List.mem_map.mp (h.mem_live.mp ⟨es, hes, of_decide_eq_true heq⟩)
      exact hn (hname ▸ h.updated e he)
    rw [hnone, flatMap_nil]

/-! ## Section 4: Every event keeps the table and the subscriptions together -/

theorem find_eq_none {p : Proxy} {key : String} (h : p.find key = none) : key ∉ p.exptmap.map Prod.fst := by
  rw [Proxy.find, map_eq_none_iff, List.find?_eq_none] at h
  intro hmem
  obtain ⟨e, he, rfl⟩ := List.mem_map.mp hmem
  exact h e he (by simp)

theorem mem_of_find {p : Proxy} {key : String} {es : Subscription} (h : p.find key = some es) :
    (key, es) ∈ p.exptmap := by
  rw [Proxy.find, map_eq_some_iff] at h
  obtain ⟨⟨k, es'⟩, hfind, rfl⟩ := h
  have hkey : k = key := by simpa using List.find?_some hfind
  exact hkey ▸ mem_of_find?_eq_some hfind

theorem Matched.entry_unique (h : Matched s) {key : String} {es : Subscription}
    (hes : (key, es) ∈ s.proxy.exptmap) {e : String × Subscription} (he : e ∈ s.proxy.exptmap) :
    e.2 = es ↔ e.1 = key := by
  constructor
  · intro heq
    rw [← h.named e he, heq, h.named _ hes]
  · intro heq
    have hsame : e = (key, es) := inj_on_of_nodup_map h.nodup he hes heq
    rw [hsame]

theorem mem_updates_of_mem {updated : List String} {expt : String} (hexpt : expt ∈ updated)
    (hclear : n.objecttype = TBDB_OBJECTTYPE_EVPROXY → n.eventtype = TBDB_EVENTTYPE_CLEAR → expt ≠ n.expt)
    (hreload : n.objecttype = TBDB_OBJECTTYPE_EVPROXY → n.eventtype ≠ TBDB_EVENTTYPE_RELOAD) :
    expt ∈ updates updated n := by
  unfold updates
  split_ifs with htype hupdate hc hr
  · exact mem_cons_of_mem _ hexpt
  · exact mem_filter.mpr ⟨hexpt, by simpa using hclear htype hc⟩
  · exact absurd hr (hreload htype)
  · exact hexpt
  · exact hexpt

theorem foldl_unsubscribe (l : List (String × Subscription)) (hl : ∀ e ∈ l, unsub e.2 = true) (s : System) :
    (l.map fun e => Request.unsubscribe e.2).foldl (System.serve sub unsub) s =
      { s with live := s.live.filter fun es => es ∉ l.map Prod.snd } := by
  induction l generalizing s with
  | nil => simp
  | cons e l ih =>
    have hstep : s.serve sub unsub (.unsubscribe e.2) = { s with live := s.live.filter (· ≠ e.2) } := by
      simp only [System.serve, hl e mem_cons_self, if_true]
    rw [map_cons, foldl_cons, hstep, ih fun e' he' => hl e' (mem_cons_of_mem _ he')]
    simp only [List.filter_filter]
    congr 1
    apply filter_congr
    intro es _
    by_cases heq : es = e.2 <;> simp [heq]

theorem Matched.outstanding (h : Matched s) (asked : Nat) (outstanding : List Subscription) :
    Matched { s with asked := asked, outstanding := outstanding } :=
  ⟨h.live, h.named, h.nodup, h.updated⟩

/-- An UPDATE, or an event that the proxy only passes on. -/
theorem Matched.told (h : Matched s) (hclear : n.objecttype = TBDB_OBJECTTYPE_EVPROXY →
      n.eventtype = TBDB_EVENTTYPE_CLEAR → n.expt ∉ s.proxy.exptmap.map Prod.fst)
    (hreload : n.objecttype = TBDB_OBJECTTYPE_EVPROXY → n.eventtype ≠ TBDB_EVENTTYPE_RELOAD) :
    Matched { s with updated := updates s.updated n } := by
  refine ⟨h.live, h.named, h.nodup, fun e he => ?_⟩
  refine mem_updates_of_mem (h.updated e he) (fun htype hc heq => ?_) hreload
  exact hclear htype hc (heq ▸ mem_map_of_mem he)

theorem Matched.clear (h : Matched s) {tmp : Subscription} (hfind : s.proxy.find n.expt = some tmp)
    (hclear : n.eventtype = TBDB_EVENTTYPE_CLEAR) :
    Matched { s with
      proxy := s.proxy.erase n.expt
      live := s.live.filter (· ≠ tmp)
      updated := updates s.updated n } := by
  have hmem := mem_of_find hfind
  constructor
  · show s.live.filter (· ≠ tmp) = (s.proxy.exptmap.filter fun e => e.1 ≠ n.expt).map Prod.snd
    rw [h.live, List.filter_map]
    congr 1
    apply filter_congr
    intro e he
    have hiff := h.entry_unique hmem he
    simp [hiff]
  · intro e he
    exact h.named e (mem_filter.mp he).1
  · exact h.nodup.sublist (filter_sublist.map _)
  · intro e he
    obtain ⟨he, hne⟩ := mem_filter.mp he
    refine mem_updates_of_mem (h.updated e he) (fun _ _ => by simpa using hne) fun _ => ?_
    rw [hclear]
    decide

theorem Matched.reload (h : Matched s) (hall : ∀ e ∈ s.proxy.exptmap, unsub e.2 = true) :
    (s.proxy.exptmap.map fun e => Request.unsubscribe e.2).foldl
      (System.serve sub unsub) s = { s with live := [] } := by
  rw [foldl_unsubscribe _ hall, ← h.live]
  simp

theorem step_received (s : System) (n : Notification) (sub : Bool) (unsub : Subscription → Bool) :
    s.step (.received n sub unsub) = some { ((callback unsub s.proxy n).2.foldl (System.serve sub unsub) s) with
        proxy := (callback unsub s.proxy n).1
        updated := updates ((callback unsub s.proxy n).2.foldl (System.serve sub unsub) s).updated n } := rfl

theorem Matched.received (h : Matched s) (hok : EventOk s (.received n sub unsub))
    (hstep : s.step (.received n sub unsub) = some s') : Matched s' := by
  rw [step_received] at hstep
  obtain rfl := some.inj hstep
  unfold callback
  by_cases htype : n.objecttype = TBDB_OBJECTTYPE_EVPROXY
  swap
  · simp only [htype, if_false, foldl_nil]
    exact h.told (fun h' => absurd h' htype) fun h' => absurd h' htype
  rw [if_pos htype]
  by_cases hupdate : n.eventtype = TBDB_EVENTTYPE_UPDATE
  · rw [if_pos hupdate]
    have hnot : n.eventtype ≠ TBDB_EVENTTYPE_CLEAR ∧ n.eventtype ≠ TBDB_EVENTTYPE_RELOAD := by
      rw [hupdate]
      decide
    have htold := h.told (fun _ h' => absurd h' hnot.1) fun _ => hnot.2
    cases hfind : s.proxy.find n.expt with
    | some es => exact htold
    | none =>
      -- the table does not show the request
      cases sub with
      | false => exact htold
      | true => exact htold.outstanding _ _
  rw [if_neg hupdate]
  by_cases hclear : n.eventtype = TBDB_EVENTTYPE_CLEAR
  · rw [if_pos hclear]
    have hnot : n.eventtype ≠ TBDB_EVENTTYPE_RELOAD := by
      rw [hclear]
      decide
    cases hfind : s.proxy.find n.expt with
    | none => exact h.told (fun _ _ => find_eq_none hfind) fun _ => hnot
    | some tmp =>
      have hgone := (hok htype).1 hclear _ (mem_of_find hfind) rfl
      simp only [hgone, if_true, foldl_cons, foldl_nil, System.serve]
      exact h.clear hfind hclear
  rw [if_neg hclear]
  by_cases hreload : n.eventtype = TBDB_EVENTTYPE_RELOAD
  · rw [if_pos hreload]
    dsimp only
    rw [foldl_append, h.reload ((hok htype).2 hreload)]
    exact ⟨rfl, by simp, nodup_nil, by simp⟩
  · rw [if_neg hreload]
    exact h.told (fun _ h' => absurd h' hclear) fun _ => hreload

theorem Matched.completed (h : Matched s) {es : Subscription} {result : Bool}
    (hok : EventOk s (.completed es result)) (hstep : s.step (.completed es result) = some s') : Matched s' := by
  unfold System.step at hstep
  dsimp only at hstep
  split at hstep
  swap
  · cases hstep
  obtain rfl := some.inj hstep
  cases result with
  | false => exact h.outstanding s.asked _
  | true =>
    obtain ⟨hhandle, hupdated, hnew⟩ := hok rfl
    have herase : s.proxy.exptmap.filter (fun e => e.1 ≠ es.expt) = s.proxy.exptmap := by
      rw [filter_eq_self]
      intro e he
      have hne : e.1 ≠ es.expt := fun heq => hnew (heq ▸ mem_map_of_mem he)
      simpa using hne
    have hmap : (subscribe_callback s.proxy true es).exptmap = s.proxy.exptmap ++ [(es.expt, es)] := by
      show (s.proxy.exptmap.filter fun e => e.1 ≠ es.expt) ++ [(es.expt, es)] = _
      rw [herase]
    constructor
    · dsimp only
      rw [if_pos ⟨rfl, hhandle⟩, hmap, h.live, map_append, map_singleton]
    · intro e he
      dsimp only at he
      rw [hmap, mem_append, mem_singleton] at he
      rcases he with he | rfl
      · exact h.named e he
      · rfl
    · dsimp only
      rw [hmap, map_append, map_singleton]
      exact h.nodup.append (nodup_singleton _) (by simpa using hnew)
    · intro e he
      dsimp only at he
      rw [hmap, mem_append, mem_singleton] at he
      rcases he with he | rfl
      · exact h.updated e he
      · exact hupdated

theorem Matched.step (h : Matched s) {e : Event} (hok : EventOk s e) (hstep : s.step e = some s') :
    Matched s' := by
  cases e with
  | received n sub unsub => exact h.received hok hstep
  | completed es result => exact h.completed hok hstep
  | lost =>
    obtain rfl := some.inj hstep
    exact ⟨rfl, by simp [reregister], nodup_nil, by simp [reregister]⟩

end

/-- **One subscription.** Along every run in which subscriptions are granted and given up in step with the
    table, an experiment has at most one subscription, and the table has those that are served. -/
theorem subscriptions_match {events : List Event} (hok : Meets System.step EventOk .start events)
    {s : System} (hrun : run System.step .start events = some s) : Subscribed s :=
  (run_inv Matched (fun _ _ _ h hok hstep => h.step hok hstep) matched_start hok hrun).subscribed

/-- An event for the proxy about an experiment. -/
def proxyEvent (eventtype expt : String) : Notification where
  eventtype := eventtype
  objecttype := TBDB_OBJECTTYPE_EVPROXY
  expt := expt

/-- An experiment comes, is cleared, and comes again. -/
def comesAndGoes : List Event :=
  [.received (proxyEvent "UPDATE" "p/e") true fun _ => true, .completed ⟨0, "p/e", 0⟩ true,
    .received (proxyEvent "CLEAR" "p/e") true fun _ => true,
    .received (proxyEvent "UPDATE" "p/e") true fun _ => true, .completed ⟨1, "p/e", 0⟩ true]

theorem subscriptions_match_comesAndGoes : ∃ s, run System.step .start comesAndGoes = some s ∧ Subscribed s := by
  refine ⟨_, rfl, @subscriptions_match comesAndGoes ?_ _ rfl⟩
  decide

/-- A second UPDATE falls between the first and the answer to its request. -/
theorem twice_subscribed : ∃ s, run System.step .start [.received (proxyEvent "UPDATE" "p/e") true fun _ => true,
      .received (proxyEvent "UPDATE" "p/e") true fun _ => true, .completed ⟨0, "p/e", 0⟩ true,
      .completed ⟨1, "p/e", 0⟩ true] = some s ∧ ¬Subscribed s := by
  refine ⟨_, rfl, fun h => ?_⟩
  have honce := h.once "p/e"
  revert honce
  decide

end Emulab.Evproxy
