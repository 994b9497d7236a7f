import Emulab.Stated.Timeouts

/-! # The timeouts of nodes over whole runs

  Reading the database replaces the table of nodes, row by row. A node whose
  row is new gets its timeout anew; a node whose timeout is left as it is must
  have a row that says the same.
-/

namespace Emulab.Stated

/-! ## Reading the database -/

/-- A row without a time sets no timeout: it must have the state of the one that is there. -/
def RowOk (oldnodes : Str → Option Node) (d : Daemon) (row : Row) : Prop :=
  row.timestamp = none → d.dbtag = row.tag.getD [] → ∀ tag info, d.timeoutTag row.node = some tag →
    ¬Pending tag → oldnodes row.node = some info → row.mode = info.mode ∧ row.state = info.state

theorem newTimeout_coherentAt {now : Int} {row : Row} {oldnodes nodes : Str → Option Node} {d : Daemon}
    (hnamed : Named d.timeouts) (h : CoherentAt oldnodes d row.node) (hrow : RowOk oldnodes d row)
    (hother : d.dbtag ≠ row.tag.getD [] → d.timeoutTag row.node = none)
    (hnode : nodes row.node = some row.toNode) : CoherentAt nodes (newTimeout now row d) row.node := by
  have hnone : d.timeoutTag row.node = none → CoherentAt nodes d row.node := by
    intro htag
    have hiff := h.queued
    rw [htag] at hiff
    exact coherentAt_of_none (by simpa using hiff) htag
  unfold newTimeout
  split
  · rename_i htime
    by_cases htag : d.dbtag = row.tag.getD []
    · refine ⟨h.queued, fun tag ht => ?_⟩
      rcases h.tag tag ht with hp | ⟨mode, state, hc⟩
      · exact Or.inl hp
      · by_cases hp : Pending tag
        · exact Or.inl hp
        · obtain ⟨info, hinfo, hmode, hstate⟩ := hc.node
          obtain ⟨hmode', hstate'⟩ := hrow htime htag tag info ht hp hinfo
          exact Or.inr ⟨mode, state, ⟨row.toNode, hnode, hmode'.trans hmode, hstate'.trans hstate⟩,
            hc.names, hc.split, hc.truthy⟩
    · exact hnone (hother htag)
  · rename_i timestamp htime
    split
    · split
      · rename_i mode state hmode hstate
        exact setTimeout_coherentAt hnamed h.queued ⟨row.toNode, hnode, hmode, hstate⟩
      · obtain ⟨hqueue, htag, -⟩ := remTimeout_none h.queued
        exact coherentAt_of_none hqueue htag
    · rename_i htag
      exact hnone (hother htag)

theorem newTimeout_frame {now : Int} {row : Row} {d : Daemon} : Frame row.node d (newTimeout now row d) := by
  unfold newTimeout
  split
  · exact .refl _ _
  split
  · split
    · exact setTimeout_frame
    · exact remTimeout_frame _ _
  · exact .refl _ _

variable {d d' : Daemon}

theorem readState_coherentAt {now : Int} {oldnodes nodes nodes' : Str → Option Node} {row : Row}
    (hnamed : Named d.timeouts) (hold : CoherentAt oldnodes d row.node) (hrow : RowOk oldnodes d row)
    (h : readState now oldnodes (d, nodes) row = some (d', nodes')) :
    CoherentAt nodes' d' row.node ∧ Frame row.node d d' ∧ ∀ n, n ≠ row.node → nodes' n = nodes n := by
  unfold readState at h
  dsimp only at h
  -- without its tag the node is not ours any more
  have hfirst : ∃ d₁, d₁ = (if d.dbtag ≠ row.tag.getD [] then remTimeout row.node d else d) ∧
      Frame row.node d d₁ ∧ CoherentAt oldnodes d₁ row.node ∧ RowOk oldnodes d₁ row ∧
      (d₁.dbtag ≠ row.tag.getD [] → d₁.timeoutTag row.node = none) := by
    refine ⟨_, rfl, ?_⟩
    split
    · obtain ⟨hqueue, htag, -⟩ := remTimeout_none hold.queued
      refine ⟨remTimeout_frame _ _, coherentAt_of_none hqueue htag, ?_, fun _ => htag⟩
      intro _ _ tag _ ht
      rw [htag] at ht
      cases ht
    · rename_i htag
      exact ⟨.refl _ _, hold, hrow, fun hne => absurd hne htag⟩
  obtain ⟨d₁, hd₁, hframe, hcoherent, hrow₁, hother⟩ := hfirst
  rw [← hd₁] at h
  obtain ⟨keep, hkeep, h⟩ := Option.bind_eq_some_iff.mp h
  cases keep with
  | true =>
    obtain ⟨rfl, rfl⟩ := Prod.mk.inj (Option.some.inj h)
    exact ⟨hcoherent.congr rfl rfl (Function.update_self _ _ _), hframe,
      fun n hn => Function.update_of_ne hn _ _⟩
  | false =>
    obtain ⟨rfl, rfl⟩ := Prod.mk.inj (Option.some.inj h)
    refine ⟨newTimeout_coherentAt (hframe.timeouts ▸ hnamed) hcoherent hrow₁ hother (Function.update_self _ _ _),
      hframe.trans newTimeout_frame, fun n hn => Function.update_of_ne hn _ _⟩

theorem RowOk.congr {oldnodes : Str → Option Node} {row : Row} (h : RowOk oldnodes d row)
    (htag : d'.timeoutTag row.node = d.timeoutTag row.node) (hdbtag : d'.dbtag = d.dbtag) :
    RowOk oldnodes d' row := by
  unfold RowOk at h ⊢
  rw [htag, hdbtag]
  exact h

theorem readStates_coherentAt {now : Int} {oldnodes nodes nodes' : Str → Option Node} {rows : List Row}
    (hnodup : (rows.map Row.node).Nodup) (hnamed : Named d.timeouts)
    (hold : ∀ row ∈ rows, CoherentAt oldnodes d row.node ∧ RowOk oldnodes d row)
    (h : rows.foldlM (readState now oldnodes) (d, nodes) = some (d', nodes')) :
    (∀ row ∈ rows, CoherentAt nodes' d' row.node) ∧ d'.timeouts = d.timeouts ∧
      ∀ n, n ∉ rows.map Row.node → d'.queue.qfind n = d.queue.qfind n ∧
        d'.timeoutTag n = d.timeoutTag n ∧ nodes' n = nodes n := by
  induction rows generalizing d nodes with
  | nil =>
    obtain ⟨rfl, rfl⟩ := Prod.mk.inj (Option.some.inj h)
    exact ⟨by simp, rfl, fun n _ => ⟨rfl, rfl, rfl⟩⟩
  | cons row rows ih =>
    obtain ⟨hnew, hnodup⟩ := List.nodup_cons.mp hnodup
    obtain ⟨⟨d₁, nodes₁⟩, hone, h⟩ := Option.bind_eq_some_iff.mp h
    obtain ⟨hcoherent, hrow⟩ := hold row List.mem_cons_self
    obtain ⟨hfirst, hframe, hnodes⟩ := readState_coherentAt hnamed hcoherent hrow hone
    have hrest : ∀ r ∈ rows, CoherentAt oldnodes d₁ r.node ∧ RowOk oldnodes d₁ r := by
      intro r hr
      have hne : r.node ≠ row.node := fun heq => hnew (heq ▸ List.mem_map_of_mem hr)
      obtain ⟨hc, hr⟩ := hold r (List.mem_cons_of_mem _ hr)
      exact ⟨hc.congr (hframe.queue _ hne) (hframe.tag _ hne) rfl, hr.congr (hframe.tag _ hne) hframe.dbtag⟩
    obtain ⟨hall, htimeouts, hothers⟩ := ih hnodup (hframe.timeouts ▸ hnamed) hrest h
    refine ⟨fun r hr => ?_, htimeouts.trans hframe.timeouts, fun n hn => ?_⟩
    · rcases List.mem_cons.mp hr with rfl | hr
      · obtain ⟨hqueue, htag, hnode⟩ := hothers r.node hnew
        exact hfirst.congr hqueue htag hnode
      · exact hall r hr
    · rw [List.map_cons, List.mem_cons, not_or] at hn
      obtain ⟨hqueue, htag, hnode⟩ := hothers n hn.2
      exact ⟨hqueue.trans (hframe.queue n hn.1), htag.trans (hframe.tag n hn.1), hnode.trans (hnodes n hn.1)⟩

/-- What is read has plain names, and a row for each node with a timeout of its state. -/
structure ReloadOk (w : World) (d : Daemon) : Prop where
  named : Named w.db.timeouts
  rows : ∀ row ∈ w.db.rows, RowOk d.nodes d row
  found : ∀ n tag, d.timeoutTag n = some tag → ¬Pending tag → n ∈ w.db.rows.map Row.node

theorem reload_books {w : World} (hd : Books d) (hok : ReloadOk w d) (h : reload w d = some d') : Books d' := by
  unfold reload at h
  obtain ⟨⟨d₁, nodes⟩, hread, h⟩ := Option.bind_eq_some_iff.mp h
  obtain rfl := Option.some.inj h
  have hnamed : Named (readTables w.db d).timeouts := hok.named
  obtain ⟨hall, htimeouts, hothers⟩ := readStates_coherentAt w.db.nodup hnamed
    (fun row hrow => ⟨(hd.coherent row.node).congr rfl rfl rfl, (hok.rows row hrow).congr rfl rfl⟩) hread
  refine ⟨fun n => ?_, ?_⟩
  · by_cases hn : n ∈ w.db.rows.map Row.node
    · obtain ⟨row, hrow, rfl⟩ := List.mem_map.mp hn
      exact (hall row hrow).congr rfl rfl rfl
    · -- a node that is gone has no timeout but that of a command
      obtain ⟨hqueue, htag, -⟩ := hothers n hn
      refine ⟨?_, fun tag ht => ?_⟩
      · show (d₁.queue.qfind n).isSome ↔ (d₁.timeoutTag n).isSome
        rw [hqueue, htag]
        exact (hd.coherent n).queued
      · have ht' : d.timeoutTag n = some tag := htag.symm.trans ht
        by_cases hp : Pending tag
        · exact Or.inl hp
        · exact absurd (hok.found n tag ht' hp) hn
  · show Named d₁.timeouts
    rw [htimeouts]
    exact hok.named

/-! ## Runs -/

/-- What is dispatched is no expired timeout sent from outside, and forces no RELOAD. -/
def DispatchOk (w : World) (objtype : ObjType) (objname eventtype : Str) (d : Daemon) : Prop :=
  match objtype with
  | .nodeState => TransitionOk w objname eventtype d
  | .control => w.lookup → eventtype = TIMEOUT → d.queue.qfind objname = none
  | .nodeOpMode | .command => True

theorem dispatch_books {w : World} {objtype : ObjType} {objname eventtype : Str}
    (hd : Books d) (hok : DispatchOk w objtype objname eventtype d)
    (h : dispatch w objtype objname eventtype d = some d') : Books d' := by
  cases objtype with
  | nodeState => exact stateTransition_books hd hok h
  | nodeOpMode => exact opModeTransition_books hd h
  | control => exact handleCtrlEvent_books hd hok h
  | command => exact handleCommand_books hd h

def StepOk (d : Daemon) (x : Input × World) : Prop :=
  match x.1 with
  | .event objtype objname eventtype =>
    (objtype ≠ .command ∧ d.nodes objname = none → ReloadOk x.2 d) ∧
      ∀ d', prepare x.2 objtype objname d = some d' → accepts x.2 objtype objname d' →
        DispatchOk x.2 objtype objname eventtype d'
  | .expire => ExpireOk x.2 d
  | .reload => ReloadOk x.2 d

theorem step_books {x : Input × World} (hd : Books d) (hok : StepOk d x) (h : step d x = some d') : Books d' := by
  obtain ⟨input, w⟩ := x
  cases input with
  | event objtype objname eventtype =>
    obtain ⟨d₁, hprepare, h⟩ := Option.bind_eq_some_iff.mp (show handleEvent w _ _ _ d = some d' from h)
    obtain ⟨hreload, hdispatch⟩ := hok
    have hd₁ : Books d₁ := by
      unfold prepare at hprepare
      split at hprepare
      · rename_i hunknown
        exact reload_books hd (hreload hunknown) hprepare
      · exact Option.some.inj hprepare ▸ hd
    split at h
    · rename_i haccepts
      exact dispatch_books hd₁ (hdispatch d₁ hprepare haccepts) h
    · exact Option.some.inj h ▸ hd₁
  | expire => exact expire_books hd hok h
  | reload => exact reload_books hd hok h

theorem start_books (soft : Bool) (dbtag : Str) : Books (Daemon.start soft dbtag) where
  coherent _ := coherentAt_of_none rfl rfl
  named := by simp [Daemon.start, Named]

/-- An expiring timeout that is not for a command runs the action of the mode and
    the state that the node is in. -/
def RunsCurrent (d : Daemon) : Prop :=
  ∀ (w : World) (deadline : Int) (node tag : Str), d.queue.qhead = some (deadline, node) → deadline ≤ w.now →
    node ≠ [] → w.lookup → d.timeoutTag node = some tag → ¬Pending tag →
    ∃ info mode state, d.nodes node = some info ∧ info.mode = some mode ∧ info.state = some state ∧
      timeoutAction d.timeouts mode state = (timeouts d.timeouts mode state).bind TimeoutRow.action ∧
      expire w d = runAction w node info.count mode state (countTimeout node info { d with queue := d.queue.qpop })

theorem Coherent.runsCurrent {d : Daemon} (hd : Coherent d) : RunsCurrent d := by
  intro w deadline node tag hhead hdue hnode hlookup htag hp
  obtain ⟨mode, state, hc⟩ := ((hd node).tag tag htag).resolve_left hp
  obtain ⟨info, hinfo, hmode, hstate⟩ := hc.node
  refine ⟨info, mode, state, hinfo, hmode, hstate, if_pos hc.truthy, ?_⟩
  have hknown : (d.nodes node).isSome := by
    rw [hinfo]
    rfl
  unfold expire
  rw [hhead]
  dsimp only
  rw [if_pos ⟨hdue, hnode⟩, if_pos hknown]
  unfold handleCtrlEvent
  rw [if_neg (not_not.mpr hlookup), if_pos rfl]
  dsimp only
  rw [htag, hinfo, Option.bind_eq_bind, Option.bind_some, Option.bind_eq_bind, Option.bind_some, hc.split]
  rfl

/-- A node that was shut down, a timeout for BOOTING, and the trigger that looks up what the node boots. -/
def bootWorld (bootopmode : Str) : World where
  now := 100
  lookup := true
  lookupSync _ := true
  nextOpMode _ := none
  bootWhat _ := (some 1, some bootopmode)
  redirect := true
  db :=
    { timeouts := [⟨"NORMALv2".toList, "BOOTING".toList, some 180, some NOTIFY⟩]
      valid := []
      modeTrans := []
      triggers := [⟨ANY, ANY, "BOOTING".toList, ["BOOTING".toList]⟩]
      rows := [{ node := "pc1".toList, state := some SHUTDOWN, timestamp := some 1,
                 mode := some "NORMALv2".toList, tag := none }]
      nodup := List.nodup_singleton _ }

/-- The daemon starts, and the node boots. -/
def bootRun (bootopmode : Str) : List (Input × World) :=
  [(.reload, bootWorld bootopmode), (.event .nodeState "pc1".toList "BOOTING".toList, bootWorld bootopmode)]

theorem triggersOk_of_bootWhat {w : World} (h : ∀ i, (w.bootWhat i).2 ≠ some RELOAD) (node oldstate : Str)
    (i : Nat) (trigs : List Str) (d : Daemon) (mode : Str) : TriggersOk w node oldstate i trigs d mode := by
  induction trigs generalizing i d mode with
  | nil => trivial
  | cons trig trigs ih =>
    refine ⟨fun _ hforces => ?_, fun d' mode' _ => ih _ _ _⟩
    obtain ⟨osid, hboot, -⟩ := hforces
    exact absurd (congrArg Prod.snd hboot) (h i)

end Emulab.Stated
