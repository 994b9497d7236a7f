import Emulab.Assign.NodeFrames
import Mathlib.Data.String.Basic

/-! # The counters of violations are exact

  In every state that is reached by adding and removing nodes, `violated` is
  what the detailed counters sum up to, the counters of unassigned vnodes and
  of unconnected vlinks count just these, and a vlink is mapped only between
  assigned vnodes. The assertions about this in the marking routines hold.
-/

namespace Emulab.Assign

open Outcome Function List

variable {R : Type}

/-! ## Section 1: The invariant -/

/-- What the counters say about links. -/
structure Links (env : Env R) (s : State R) : Prop where
  drift : s.drift = 0
  noConnection : s.vinfo.noConnection = (env.vg.edges.countP fun e => (s.vlink e).noConnection : Nat)
  unmapped : ∀ e ∈ env.vg.edges, ((s.vlink e).noConnection = true ↔ (s.vlink e).linkInfo.typeUsed = .unmapped)
  mapped : ∀ e ∈ env.vg.edges, (s.vlink e).linkInfo.typeUsed ≠ .unmapped →
    (s.vnode (env.vg.vlink e).src).assigned = true ∧ (s.vnode (env.vg.vlink e).dst).assigned = true

/-- What the counters say about nodes. -/
def Unassigned (env : Env R) (s : State R) : Prop :=
  s.vinfo.unassigned = (env.vg.vertices.countP fun v => !(s.vnode v).assigned : Nat)

theorem countP_eq_add_one {α : Type} [DecidableEq α] {l : List α} (hl : l.Nodup) {a : α}
    (ha : a ∈ l) {p q : α → Bool} (hpq : ∀ x, x ≠ a → p x = q x) (hp : p a = true)
    (hq : q a = false) : l.countP p = l.countP q + 1 := by
  have herase : (l.erase a).countP p = (l.erase a).countP q := by
    refine countP_congr fun x hx => ?_
    have hne : x ≠ a := fun h => (hl.mem_erase_iff.mp hx).1 h
    rw [hpq x hne]
  have hperm := perm_cons_erase ha
  rw [hperm.countP_eq p, hperm.countP_eq q, countP_cons, countP_cons, herase, hp, hq]
  simp

/-! ## Section 2: Steps on one link -/

/-- A step that changes of assignments and links the vlink `ve` only, and counts
    `n` more unconnected vlinks. -/
structure ChangesLink (ve : VEdge) (n : Int) (s s' : State R) : Prop where
  vnode : s'.vnode = s.vnode
  vlink_of_ne : ∀ e, e ≠ ve → s'.vlink e = s.vlink e
  pnode : s'.pnode = s.pnode
  vclass : s'.vclass = s.vclass
  drift : s'.drift = s.drift
  unassigned : s'.vinfo.unassigned = s.vinfo.unassigned
  noConnection : s'.vinfo.noConnection = s.vinfo.noConnection + n

variable {ve : VEdge}

theorem ScoresLink.changes {s s' : State R} (h : ScoresLink ve s s') : ChangesLink ve 0 s s' :=
  ⟨h.vnode, h.vlink_of_ne, h.pnode, h.vclass, h.drift, h.unassigned, by simp [h.noConnection]⟩

theorem ChangesLink.trans {m n : Int} {s₁ s₂ s₃ : State R}
    (h₁ : ChangesLink ve m s₁ s₂) (h₂ : ChangesLink ve n s₂ s₃) : ChangesLink ve (m + n) s₁ s₃ where
  vnode := h₂.vnode.trans h₁.vnode
  vlink_of_ne e he := (h₂.vlink_of_ne e he).trans (h₁.vlink_of_ne e he)
  pnode := h₂.pnode.trans h₁.pnode
  vclass := h₂.vclass.trans h₁.vclass
  drift := h₂.drift.trans h₁.drift
  unassigned := h₂.unassigned.trans h₁.unassigned
  noConnection := by rw [h₂.noConnection, h₁.noConnection, Int.add_assoc]

section

variable {env : Env R} {ve : VEdge} {s s' : State R}

theorem Links.same (h : Links env s) (hc : ChangesLink ve 0 s s')
    (hno : (s'.vlink ve).noConnection = (s.vlink ve).noConnection)
    (htype : (s'.vlink ve).linkInfo.typeUsed = (s.vlink ve).linkInfo.typeUsed) : Links env s' := by
  have hall : ∀ e, (s'.vlink e).noConnection = (s.vlink e).noConnection ∧
      (s'.vlink e).linkInfo.typeUsed = (s.vlink e).linkInfo.typeUsed := by
    intro e
    by_cases he : e = ve
    · subst he
      exact ⟨hno, htype⟩
    · rw [hc.vlink_of_ne e he]
      exact ⟨rfl, rfl⟩
  refine ⟨hc.drift.trans h.drift, ?_, fun e he => ?_, fun e he hmapped => ?_⟩
  · rw [hc.noConnection, Int.add_zero, h.noConnection]
    simp only [(hall _).1]
  · rw [(hall e).1, (hall e).2]
    exact h.unmapped e he
  · rw [(hall e).2] at hmapped
    rw [hc.vnode]
    exact h.mapped e he hmapped

theorem Links.connect (h : Links env s) (hc : ChangesLink ve (-1) s s') (hve : ve ∈ env.vg.edges)
    (hbefore : (s.vlink ve).noConnection = true) (hafter : (s'.vlink ve).noConnection = false)
    (htype : (s'.vlink ve).linkInfo.typeUsed ≠ .unmapped) (hsrc : (s.vnode (env.vg.vlink ve).src).assigned = true)
    (hdst : (s.vnode (env.vg.vlink ve).dst).assigned = true) : Links env s' := by
  refine ⟨hc.drift.trans h.drift, ?_, fun e he => ?_, fun e he hmapped => ?_⟩
  · have hcount := countP_eq_add_one env.vg.edges_nodup hve
      (p := fun e => (s.vlink e).noConnection) (q := fun e => (s'.vlink e).noConnection)
      (fun e he => by rw [hc.vlink_of_ne e he]) hbefore hafter
    have hbase := h.noConnection
    rw [hc.noConnection, hbase, hcount]
    push_cast
    ring
  · by_cases heq : e = ve
    · subst heq
      simp [hafter, htype]
    · rw [hc.vlink_of_ne e heq]
      exact h.unmapped e he
  · rw [hc.vnode]
    by_cases heq : e = ve
    · subst heq
      exact ⟨hsrc, hdst⟩
    · rw [hc.vlink_of_ne e heq] at hmapped
      exact h.mapped e he hmapped

theorem Links.disconnect (h : Links env s) (hc : ChangesLink ve 1 s s') (hve : ve ∈ env.vg.edges)
    (hbefore : (s.vlink ve).noConnection = false) (hafter : (s'.vlink ve).noConnection = true)
    (htype : (s'.vlink ve).linkInfo.typeUsed = .unmapped) : Links env s' := by
  refine ⟨hc.drift.trans h.drift, ?_, fun e he => ?_, fun e he hmapped => ?_⟩
  · have hcount := countP_eq_add_one env.vg.edges_nodup hve
      (p := fun e => (s'.vlink e).noConnection) (q := fun e => (s.vlink e).noConnection)
      (fun e he => by rw [hc.vlink_of_ne e he]) hafter hbefore
    rw [hc.noConnection, h.noConnection, hcount]
    push_cast
    ring
  · by_cases heq : e = ve
    · subst heq
      simp [hafter, htype]
    · rw [hc.vlink_of_ne e heq]
      exact h.unmapped e he
  · rw [hc.vnode]
    by_cases heq : e = ve
    · subst heq
      exact absurd htype hmapped
    · rw [hc.vlink_of_ne e heq] at hmapped
      exact h.mapped e he hmapped

end

variable [Double R]

variable {s : State R}

theorem markVlinkAssigned_ends (env : Env R) (h : (s.vlink ve).noConnection = true) :
    Ends Fault.Unmarked (markVlinkAssigned env ve s) fun s' => ChangesLink ve (-1) s s' ∧
      (s'.vlink ve).noConnection = false ∧ (s'.vlink ve).linkInfo = (s.vlink ve).linkInfo := by
  unfold markVlinkAssigned
  rw [if_pos h]
  refine ⟨⟨rfl, fun e he => update_of_ne he _ _, rfl, rfl, ?_, rfl, rfl⟩, ?_, ?_⟩
  · simp only [State.drift, ViolatedInfo.countViolations, State.ssub, State.setVlink]
    omega
  · simp [State.setVlink, State.ssub]
  · simp [State.setVlink, State.ssub]

theorem markVlinkUnassigned_ends (env : Env R) (h : (s.vlink ve).noConnection = false) :
    Ends Fault.Unmarked (markVlinkUnassigned env ve s) fun s' => ChangesLink ve 1 s s' ∧
      (s'.vlink ve).noConnection = true ∧ (s'.vlink ve).linkInfo.typeUsed = .unmapped := by
  unfold markVlinkUnassigned
  rw [if_pos (by simp [h])]
  refine ⟨⟨rfl, fun e he => update_of_ne he _ _, rfl, rfl, ?_, rfl, rfl⟩, ?_, ?_⟩
  · simp only [State.drift, ViolatedInfo.countViolations, State.sadd, State.setVlink]
    omega
  · simp [State.setVlink, State.sadd]
  · simp [State.setVlink, State.sadd]

/-! ## Section 3: Resolving links -/

/-- What resolving or removing the links of a vnode leaves alone. -/
structure SameNodes (s s' : State R) : Prop where
  vnode : s'.vnode = s.vnode
  pnode : s'.pnode = s.pnode
  vclass : s'.vclass = s.vclass
  unassigned : s'.vinfo.unassigned = s.vinfo.unassigned

omit [Double R] in
theorem SameNodes.refl (s : State R) : SameNodes s s := ⟨rfl, rfl, rfl, rfl⟩

omit [Double R] in
theorem SameNodes.trans {s₁ s₂ s₃ : State R} (h₁ : SameNodes s₁ s₂) (h₂ : SameNodes s₂ s₃) : SameNodes s₁ s₃ :=
  ⟨h₂.vnode.trans h₁.vnode, h₂.pnode.trans h₁.pnode, h₂.vclass.trans h₁.vclass, h₂.unassigned.trans h₁.unassigned⟩

omit [Double R] in
theorem ChangesLink.sameNodes {n : Int} {s s' : State R} (h : ChangesLink ve n s s') :
    SameNodes s s' := ⟨h.vnode, h.pnode, h.vclass, h.unassigned⟩

omit [Double R] in
theorem changesLink_setVlink (ve : VEdge) (s : State R) (f : VlinkState → VlinkState)
    (hf : (f (s.vlink ve)).noConnection = (s.vlink ve).noConnection) :
    ChangesLink ve 0 s (s.setVlink ve f) := (scoresLink_setVlink ve s f hf).changes

section Resolve

variable {env : Env R} {ve : VEdge} {s : State R}

theorem resolveTrivial_ends (ends : LinkEnds) (h : Links env s) (hve : ve ∈ env.vg.edges)
    (hno : (s.vlink ve).noConnection = true) (hsrc : (s.vnode (env.vg.vlink ve).src).assigned = true)
    (hdst : (s.vnode (env.vg.vlink ve).dst).assigned = true) :
    Ends Fault.Unmarked (resolveTrivial env ve ends s) fun s' =>
      Links env s' ∧ SameNodes s s' ∧ ∀ e, e ≠ ve → s'.vlink e = s.vlink e := by
  unfold resolveTrivial
  by_cases hallowed : env.opts.allowTrivialLinks ∧ (env.vg.vlink ve).allowTrivial
  · rw [if_pos hallowed]
    dsimp only
    have hset := changesLink_setVlink ve s
      (fun l => { l with linkInfo := { l.linkInfo with typeUsed := .trivial } }) rfl
    have htype : ((s.setVlink ve fun l =>
        { l with linkInfo := { l.linkInfo with typeUsed := .trivial } }).vlink ve).linkInfo.typeUsed
          = .trivial := by
      simp [State.setVlink]
    have hno₁ : ((s.setVlink ve fun l =>
        { l with linkInfo := { l.linkInfo with typeUsed := .trivial } }).vlink ve).noConnection = true := by
      simpa [State.setVlink] using hno
    rw [if_pos hno₁]
    refine (markVlinkAssigned_ends env hno₁).bind ?_
    rintro s₂ ⟨hmark, hno₂, hinfo₂⟩
    refine (scoreLinkInfo_scores env ve _ _ _ _ s₂).imp ?_
    rintro s₃ ⟨hscore, hinfo₃⟩
    have hchange : ChangesLink ve (-1) s s₃ := (hset.trans hmark).trans hscore.changes
    refine ⟨h.connect hchange hve hno (by rw [hscore.connected, hno₂]) ?_ hsrc hdst,
      hchange.sameNodes, hchange.vlink_of_ne⟩
    rw [hinfo₃, hinfo₂, htype]
    decide
  · rw [if_neg hallowed, if_neg (by simp [hno])]
    exact ⟨h, .refl s, fun _ _ => rfl⟩

theorem resolveNontrivial_ends (ends : LinkEnds) (flipped deterministic : Bool) (random : Nat)
    (h : Links env s) (hve : ve ∈ env.vg.edges) (hno : (s.vlink ve).noConnection = true)
    (hsrc : (s.vnode (env.vg.vlink ve).src).assigned = true)
    (hdst : (s.vnode (env.vg.vlink ve).dst).assigned = true) :
    Ends Fault.Unmarked (resolveNontrivial env ve ends flipped deterministic random s) fun s' =>
      Links env s' ∧ SameNodes s s' ∧ ∀ e, e ≠ ve → s'.vlink e = s.vlink e := by
  unfold resolveNontrivial
  refine (findLinkResolutions_types env s _ _ ve flipped).bind fun infos hinfos => ?_
  by_cases hempty : infos = []
  · rw [if_pos hempty, if_neg (by simp [hno])]
    exact ⟨h, .refl s, fun _ _ => rfl⟩
  · rw [if_neg hempty]
    refine (chooseResolution_scores env ve ends deterministic random infos s).bind ?_
    rintro ⟨info, s₁⟩ ⟨hchoose, hinfo⟩
    dsimp only at hchoose hinfo ⊢
    have hset := changesLink_setVlink ve s₁ (fun l => { l with linkInfo := info }) rfl
    have hinfo₂ : ((setLinkInfo ve info s₁).vlink ve).linkInfo = info := by
      simp [setLinkInfo, State.setVlink]
    refine (scoreLinkInfo_scores env ve _ _ _ _ _).bind ?_
    rintro s₃ ⟨hscore, hinfo₃⟩
    have hchange₃ : ChangesLink ve 0 s s₃ := (hchoose.changes.trans hset).trans hscore.changes
    have hno₃ : (s₃.vlink ve).noConnection = true := by
      have hno₂ : ((setLinkInfo ve info s₁).vlink ve).noConnection = true := by
        simp only [setLinkInfo, State.setVlink, update_self]
        rw [hchoose.connected, hno]
      rw [hscore.connected, hno₂]
    rw [if_pos hno₃]
    refine (markVlinkAssigned_ends env hno₃).imp ?_
    rintro s₄ ⟨hmark, hno₄, hinfo₄⟩
    have hchange : ChangesLink ve (-1) s s₄ := hchange₃.trans hmark
    refine ⟨h.connect hchange hve hno hno₄ ?_ hsrc hdst, hchange.sameNodes, hchange.vlink_of_ne⟩
    rw [hinfo₄, hinfo₃, hinfo₂]
    exact (hinfos info hinfo).1

end Resolve

omit [Double R] in
theorem VGraph.ends_of_mem {vg : VGraph R} {v : VVertex} {e : VEdge} (h : e ∈ vg.outEdges v) :
    ((vg.vlink e).src = v ∧ (vg.vlink e).dst = vg.otherEnd v e) ∨
      ((vg.vlink e).dst = v ∧ (vg.vlink e).src = vg.otherEnd v e) := by
  unfold VGraph.otherEnd
  rcases (VGraph.mem_outEdges.mp h).2 with hsrc | hdst
  · by_cases hdst : (vg.vlink e).dst = v
    · exact Or.inr ⟨hdst, by rw [if_pos hdst]⟩
    · exact Or.inl ⟨hsrc, by rw [if_neg hdst]⟩
  · exact Or.inr ⟨hdst, by rw [if_pos hdst]⟩

variable {env : Env R} {vv : VVertex} {pv : PVertex}

theorem resolveLink_ends {deterministic : Bool} {random : Nat} (h : Links env s) (hve : ve ∈ env.vg.outEdges vv)
    (hno : (s.vlink ve).noConnection = true) (hvv : (s.vnode vv).assigned = true) :
    Ends Fault.Unmarked (resolveLink env vv pv deterministic random ve s) fun s' =>
      Links env s' ∧ SameNodes s s' ∧ ∀ e, e ≠ ve → s'.vlink e = s.vlink e := by
  have hedge := (VGraph.mem_outEdges.mp hve).1
  unfold resolveLink
  dsimp only
  split_ifs with hflip hassigned hsame
  · exact unmarked_assertion
  · rcases VGraph.ends_of_mem hve with ⟨hsrc, hdst⟩ | ⟨hdst, hsrc⟩
    · exact resolveTrivial_ends _ h hedge hno (by rw [hsrc, hvv]) (by rw [hdst, hassigned])
    · exact resolveTrivial_ends _ h hedge hno (by rw [hsrc, hassigned]) (by rw [hdst, hvv])
  · rcases VGraph.ends_of_mem hve with ⟨hsrc, hdst⟩ | ⟨hdst, hsrc⟩
    · exact resolveNontrivial_ends _ _ _ _ h hedge hno (by rw [hsrc, hvv]) (by rw [hdst, hassigned])
    · exact resolveNontrivial_ends _ _ _ _ h hedge hno (by rw [hsrc, hassigned]) (by rw [hdst, hvv])
  · exact ⟨h, .refl s, fun _ _ => rfl⟩

theorem resolveLinksLoop_ends {deterministic : Bool}
    {random : VEdge → Nat} {ves seen : List VEdge} (h : Links env s)
    (hves : ∀ e ∈ ves, e ∈ env.vg.outEdges vv) (hno : ∀ e ∈ ves, e ∉ seen → (s.vlink e).noConnection = true)
    (hvv : (s.vnode vv).assigned = true) :
    Ends Fault.Unmarked (resolveLinksLoop env vv pv deterministic random ves seen s) fun s' =>
      Links env s' ∧ SameNodes s s' := by
  induction ves generalizing seen s with
  | nil => exact ⟨h, .refl s⟩
  | cons ve ves ih =>
    have hrest : ∀ e ∈ ves, e ∈ env.vg.outEdges vv := fun e he =>
      hves e (mem_cons_of_mem _ he)
    unfold resolveLinksLoop
    by_cases hseen : ve ∈ seen
    · rw [if_pos hseen]
      exact ih h hrest (fun e he => hno e (mem_cons_of_mem _ he)) hvv
    · rw [if_neg hseen]
      refine (resolveLink_ends h (hves ve mem_cons_self)
        (hno ve mem_cons_self hseen) hvv).bind fun s₁ ⟨hlinks, hnodes, hothers⟩ => ?_
      refine (ih hlinks hrest (fun e he hnew => ?_) (by rw [hnodes.vnode, hvv])).imp
        fun s₂ ⟨hlinks₂, hnodes₂⟩ => ⟨hlinks₂, hnodes.trans hnodes₂⟩
      have hne : e ≠ ve := fun heq => hnew (by simp [heq])
      rw [hothers e hne]
      exact hno e (mem_cons_of_mem _ he) fun hmem => hnew (mem_cons_of_mem _ hmem)

/-! ## Section 4: Removing links -/

theorem unscoreLinkInfo_unmapped (env : Env R) (srcPnode dstPnode : PVertex)
    (srcVnode dstVnode : VVertex) (h : (s.vlink ve).linkInfo.typeUsed = .unmapped) :
    Ends Fault.Unmarked (unscoreLinkInfo env ve srcPnode dstPnode srcVnode dstVnode s) fun s' =>
      (s'.vlink ve).linkInfo = (s.vlink ve).linkInfo := by
  have hmix : unscoreMix env (s.vlink ve).linkInfo.typeUsed srcVnode dstVnode s = s := by
    simp [unscoreMix, h]
  have hmapping : unscoreMapping env ve srcPnode dstPnode s = .ok s := by
    simp [unscoreMapping, h]
  unfold unscoreLinkInfo
  rw [hmix]
  dsimp only
  rw [hmapping]
  show Ends _ (if _ then _ else _) _
  split_ifs
  · simp [State.setVlink]
  · rfl

/-- After the links to assigned vnodes have been removed, a link is not mapped. -/
theorem removeLink_ends (h : Links env s) (hve : ve ∈ env.vg.outEdges vv) :
    Ends Fault.Unmarked (removeLink env vv pv ve s) fun s' =>
      Links env s' ∧ SameNodes s s' ∧ (∀ e, e ≠ ve → s'.vlink e = s.vlink e) ∧
        (s'.vlink ve).linkInfo.typeUsed = .unmapped := by
  have hedge := (VGraph.mem_outEdges.mp hve).1
  unfold removeLink
  dsimp only
  split_ifs with hassigned
  · refine ⟨h, .refl s, fun _ _ => rfl, ?_⟩
    -- a mapped link has two assigned ends
    by_contra hmapped
    obtain ⟨hsrc, hdst⟩ := h.mapped ve hedge hmapped
    rcases VGraph.ends_of_mem hve with ⟨_, hother⟩ | ⟨_, hother⟩
    · rw [hother] at hdst
      simp [hdst] at hassigned
    · rw [hother] at hsrc
      simp [hsrc] at hassigned
  · by_cases hno : (s.vlink ve).noConnection = true
    · have hunmapped := (h.unmapped ve hedge).mp hno
      refine ((unscoreLinkInfo_scores env ve _ _ _ _ s).and
        (unscoreLinkInfo_unmapped env _ _ _ _ hunmapped)).bind fun s₁ ⟨hscore, hinfo⟩ => ?_
      have hno₁ : (s₁.vlink ve).noConnection = true := by rw [hscore.connected, hno]
      rw [if_neg (by simp [hno₁])]
      exact ⟨h.same hscore.changes hscore.connected (by rw [hinfo]), hscore.changes.sameNodes,
        hscore.vlink_of_ne, by rw [hinfo, hunmapped]⟩
    · refine (unscoreLinkInfo_scores env ve _ _ _ _ s).bind fun s₁ hscore => ?_
      have hno₁ : (s₁.vlink ve).noConnection = false := by
        rw [hscore.connected]
        simpa using hno
      rw [if_pos (by simp [hno₁])]
      refine (markVlinkUnassigned_ends env hno₁).imp fun s₂ ⟨hmark, hno₂, htype₂⟩ => ?_
      have hchange : ChangesLink ve 1 s s₂ := hscore.changes.trans hmark
      exact ⟨h.disconnect hchange hedge (by simpa using hno) hno₂ htype₂, hchange.sameNodes,
        hchange.vlink_of_ne, htype₂⟩

theorem removeLinksLoop_ends {ves seenLoopback : List VEdge} (h : Links env s)
    (hves : ∀ e ∈ ves, e ∈ env.vg.outEdges vv)
    (hseen : ∀ e ∈ seenLoopback, (s.vlink e).linkInfo.typeUsed = .unmapped) :
    Ends Fault.Unmarked (removeLinksLoop env vv pv ves seenLoopback s) fun s' =>
      Links env s' ∧ SameNodes s s' ∧ (∀ e ∈ ves, (s'.vlink e).linkInfo.typeUsed = .unmapped) ∧
        ∀ e, (s.vlink e).linkInfo.typeUsed = .unmapped → (s'.vlink e).linkInfo.typeUsed = .unmapped := by
  induction ves generalizing seenLoopback s with
  | nil => exact ⟨h, .refl s, by simp, fun _ he => he⟩
  | cons ve ves ih =>
    have hrest : ∀ e ∈ ves, e ∈ env.vg.outEdges vv := fun e he =>
      hves e (mem_cons_of_mem _ he)
    -- removing the first link, and then the others
    have hremove (seen : List VEdge) (hseen' : ∀ e ∈ seen, e ≠ ve → (s.vlink e).linkInfo.typeUsed = .unmapped) :
        Ends Fault.Unmarked (removeLink env vv pv ve s >>= removeLinksLoop env vv pv ves seen)
          fun s' => Links env s' ∧ SameNodes s s' ∧ (∀ e ∈ ve :: ves, (s'.vlink e).linkInfo.typeUsed = .unmapped) ∧
            ∀ e, (s.vlink e).linkInfo.typeUsed = .unmapped → (s'.vlink e).linkInfo.typeUsed = .unmapped := by
      refine (removeLink_ends h (hves ve mem_cons_self)).bind
        fun s₁ ⟨hlinks, hnodes, hothers, hunmapped⟩ => ?_
      have hkeep : ∀ e, (s.vlink e).linkInfo.typeUsed = .unmapped →
          (s₁.vlink e).linkInfo.typeUsed = .unmapped := by
        intro e he
        by_cases heq : e = ve
        · rw [heq, hunmapped]
        · rw [hothers e heq, he]
      refine (ih hlinks hrest fun e he => ?_).imp
        fun s₂ ⟨hlinks₂, hnodes₂, hves₂, hkeep₂⟩ => ⟨hlinks₂, hnodes.trans hnodes₂, ?_, ?_⟩
      · by_cases heq : e = ve
        · rw [heq, hunmapped]
        · exact hkeep e (hseen' e he heq)
      · intro e he
        rcases mem_cons.mp he with rfl | he
        · exact hkeep₂ e hunmapped
        · exact hves₂ e he
      · exact fun e he => hkeep₂ e (hkeep e he)
    unfold removeLinksLoop
    split_ifs with hloop hmem
    · refine (ih h hrest hseen).imp fun s' ⟨hlinks, hnodes, hves', hkeep⟩ =>
        ⟨hlinks, hnodes, ?_, hkeep⟩
      intro e he
      rcases mem_cons.mp he with rfl | he
      · exact hkeep e (hseen e hmem)
      · exact hves' e he
    · refine hremove (ve :: seenLoopback) fun e he hne => ?_
      rcases mem_cons.mp he with heq | he
      · exact absurd heq hne
      · exact hseen e he
    · exact hremove seenLoopback fun e he _ => hseen e he

/-! ## Section 5: Adding and removing nodes -/

omit [Double R] in
theorem Links.scoresNode {s s' : State R} (h : Links env s) (hs : ScoresNode s s') : Links env s' := by
  refine ⟨hs.drift.trans h.drift, ?_, ?_, ?_⟩
  · rw [hs.noConnection, hs.vlink]
    exact h.noConnection
  · rw [hs.vlink]
    exact h.unmapped
  · rw [hs.vlink, hs.vnode]
    exact h.mapped

omit [Double R] in
theorem Unassigned.scoresNode {s s' : State R} (h : Unassigned env s)
    (hs : ScoresNode s s') : Unassigned env s' := by
  unfold Unassigned
  rw [hs.unassigned, hs.vnode]
  exact h

omit [Double R] in
theorem Unassigned.sameNodes {s s' : State R} (h : Unassigned env s)
    (hs : SameNodes s s') : Unassigned env s' := by
  unfold Unassigned
  rw [hs.unassigned, hs.vnode]
  exact h

/-- **The invariant.** All counters of violations are exact. -/
structure Counters (env : Env R) (s : State R) : Prop where
  links : Links env s
  unassigned : Unassigned env s

omit [Double R] in
theorem Counters.scoresNode {s s' : State R} (h : Counters env s) (hs : ScoresNode s s') : Counters env s' :=
  ⟨h.links.scoresNode hs, h.unassigned.scoresNode hs⟩

/-- `add_node` after the type has been found. The vnode is marked as assigned
    before its links are resolved, and counted so only afterwards. -/
theorem addTyped_ends {deterministic isFixed skipLinks : Bool} {random : VEdge → Nat} {tr : TypeRecord}
    (h : Counters env s) (hmem : vv ∈ env.vg.vertices) (hvv : (s.vnode vv).assigned = false) :
    Ends Fault.Unmarked (addTyped env vv pv deterministic isFixed skipLinks random tr s) (Counters env) := by
  unfold addTyped
  dsimp only
  have hsub := addSubnodes_scores env (subnodeViolations env vv pv s) s
  generalize addSubnodes env (subnodeViolations env vv pv s) s = s₁ at hsub ⊢
  have h₁ := h.scoresNode hsub
  have hvv₁ : (s₁.vnode vv).assigned = false := by rw [hsub.vnode, hvv]
  generalize hs₂ : s₁.setVnode vv (fun v => { v with assignment := pv, assigned := true }) = s₂
  have hassigned : ∀ v, (s₁.vnode v).assigned = true → (s₂.vnode v).assigned = true := by
    intro v hv
    rw [← hs₂]
    by_cases heq : v = vv
    · simp [State.setVnode, heq]
    · simpa [State.setVnode, heq] using hv
  have hvv₂ : (s₂.vnode vv).assigned = true := by simp [← hs₂, State.setVnode]
  have hvlink₂ : s₂.vlink = s₁.vlink := by rw [← hs₂]; rfl
  have hvinfo₂ : s₂.vinfo = s₁.vinfo := by rw [← hs₂]; rfl
  have hdrift₂ : s₂.drift = s₁.drift := by rw [← hs₂]; rfl
  have hlinks₂ : Links env s₂ := by
    refine ⟨hdrift₂.trans h₁.links.drift, ?_, ?_, ?_⟩
    · rw [hvlink₂, hvinfo₂]
      exact h₁.links.noConnection
    · rw [hvlink₂]
      exact h₁.links.unmapped
    · intro e he hmapped
      rw [hvlink₂] at hmapped
      obtain ⟨hsrc, hdst⟩ := h₁.links.mapped e he hmapped
      exact ⟨hassigned _ hsrc, hassigned _ hdst⟩
  have hcount : (env.vg.vertices.countP fun v => !(s₁.vnode v).assigned) =
      (env.vg.vertices.countP fun v => !(s₂.vnode v).assigned) + 1 := by
    refine countP_eq_add_one env.vg.vertices_nodup hmem (fun v hv => ?_) (by simp [hvv₁]) (by simp [hvv₂])
    simp [← hs₂, State.setVnode, hv]
  -- no link of the vnode is connected yet
  have hno : ∀ e ∈ env.vg.outEdges vv, e ∉ [] → (s₂.vlink e).noConnection = true := by
    intro e he _
    have hedge := (VGraph.mem_outEdges.mp he).1
    rw [hvlink₂, h₁.links.unmapped e hedge]
    by_contra hmapped
    obtain ⟨hsrc, hdst⟩ := h₁.links.mapped e hedge hmapped
    rcases (VGraph.mem_outEdges.mp he).2 with heq | heq
    · rw [heq, hvv₁] at hsrc
      cases hsrc
    · rw [heq, hvv₁] at hdst
      cases hdst
  have hresolve : Ends Fault.Unmarked (if skipLinks then .ok s₂ else
      resolveLinks env vv pv deterministic random s₂) fun s' =>
      Links env s' ∧ SameNodes s₂ s' := by
    split_ifs
    · exact ⟨hlinks₂, .refl s₂⟩
    · exact resolveLinksLoop_ends hlinks₂ (fun _ he => he) hno hvv₂
  refine hresolve.bind fun s₃ ⟨hlinks₃, hnodes₃⟩ => ?_
  have hload := scoreLoad_scores env vv pv (s.vnode vv).type tr s₃
  generalize scoreLoad env vv pv (s.vnode vv).type tr s₃ = s₄ at hload ⊢
  have hlinks₄ := hlinks₃.scoresNode hload
  have h₅ : Counters env (scoreAssigned env s₄) := by
    refine ⟨⟨?_, hlinks₄.noConnection, hlinks₄.unmapped, hlinks₄.mapped⟩, ?_⟩
    · have hdrift := hlinks₄.drift
      simp only [State.drift, ViolatedInfo.countViolations, scoreAssigned, State.ssub] at hdrift ⊢
      omega
    · show s₄.vinfo.unassigned - 1 = _
      have hun : s₄.vinfo.unassigned = s₁.vinfo.unassigned := by
        rw [hload.unassigned, hnodes₃.unassigned, hvinfo₂]
      have hbase : s₁.vinfo.unassigned =
          ((env.vg.vertices.countP fun v => !(s₁.vnode v).assigned : Nat) : Int) := h₁.unassigned
      have hvnode : (scoreAssigned env s₄).vnode = s₂.vnode := hload.vnode.trans hnodes₃.vnode
      rw [hvnode, hun, hbase, hcount]
      push_cast
      ring
  refine (scoreDesires_scores env vv pv isFixed _).bind fun s₆ hdesires => ?_
  have hpclass := ScoresNode.ite (c := pclassUnused env pv tr s₆ = true)
    (fun _ => scoresNode_sadd s₆ env.score.pclass) fun _ => .refl s₆
  have hrest := (hdesires.trans hpclass).trans (scoreVclass_scores env vv _)
  exact (usePclass_scores env pv tr _).imp fun s₇ huse => h₅.scoresNode (hrest.trans huse)

theorem addNode_ends {deterministic isFixed skipLinks : Bool} {random : VEdge → Nat}
    (h : Counters env s) (hmem : vv ∈ env.vg.vertices) :
    Ends Fault.Unmarked (addNode env vv pv deterministic isFixed skipLinks random s)
      fun r => Counters env r.2 := by
  unfold addNode
  split_ifs with hvv
  · split
    · exact h
    · rename_i tr s₁ htake
      have hnode := takeType_scores htake
      have hvv₁ : (s₁.vnode vv).assigned = false := by
        rw [hnode.vnode]
        simpa using hvv
      exact (addTyped_ends (h.scoresNode hnode) hmem hvv₁).bind fun s₂ h₂ => h₂
  · exact unmarked_assertion

/-- `remove_node`: the links are unmapped while the vnode is still marked as assigned. -/
theorem removeNode_ends (h : Counters env s) (hmem : vv ∈ env.vg.vertices) :
    Ends Fault.Unmarked (removeNode env vv s) (Counters env) := by
  unfold removeNode
  split_ifs with hvv
  · dsimp only
    refine (recordOf_ends env vv _ s).bind fun ⟨type, tr⟩ _ => ?_
    refine (releasePclass_scores env _ tr s).bind fun s₁ hrelease => ?_
    have hpclass := ScoresNode.ite (c := pclassUnused env (s.vnode vv).assignment tr s₁ = true)
      (fun _ => scoresNode_ssub s₁ env.score.pclass) fun _ => .refl s₁
    generalize hs₂ : (if pclassUnused env (s.vnode vv).assignment tr s₁ = true then
      s₁.ssub env.score.pclass else s₁) = s₂ at hpclass
    have hclass := unscoreVclass_scores env vv s₂
    generalize unscoreVclass env vv s₂ = s₃ at hclass ⊢
    have hsub := removeSubnodes_scores env (subnodeViolations env vv (s.vnode vv).assignment s₃) s₃
    generalize removeSubnodes env (subnodeViolations env vv (s.vnode vv).assignment s₃) s₃ = s₄ at hsub ⊢
    have hnode : ScoresNode s s₄ := ((hrelease.trans hpclass).trans hclass).trans hsub
    have h₄ := h.scoresNode hnode
    refine (removeLinksLoop_ends h₄.links (fun _ he => he) (by simp)).bind
      fun s₅ ⟨hlinks₅, hnodes₅, hunmapped₅, _⟩ => ?_
    have h₅ : Counters env s₅ := ⟨hlinks₅, h₄.unassigned.sameNodes hnodes₅⟩
    refine (unscoreLoad_scores env vv _ type tr s₅).bind fun s₆ hload => ?_
    have h₆ := h₅.scoresNode hload
    have hvv₆ : (s₆.vnode vv).assigned = true := by
      rw [hload.vnode, hnodes₅.vnode, hnode.vnode, hvv]
    generalize hs₇ : scoreUnassigned env vv s₆ = s₇
    have hvnode₇ : s₇.vnode = update s₆.vnode vv { s₆.vnode vv with assigned := false } := by rw [← hs₇]; rfl
    have h₇ : Counters env s₇ := by
      have hdrift := h₆.links.drift
      refine ⟨⟨?_, by rw [← hs₇]; exact h₆.links.noConnection,
        by rw [← hs₇]; exact h₆.links.unmapped, fun e he hmapped => ?_⟩, ?_⟩
      · rw [← hs₇]
        simp only [State.drift, ViolatedInfo.countViolations, scoreUnassigned, State.sadd,
          State.setVnode] at hdrift ⊢
        omega
      · -- the links of the vnode are not mapped any more
        have hvlink : s₇.vlink = s₅.vlink := by rw [← hs₇]; exact hload.vlink
        have hout : e ∉ env.vg.outEdges vv := by
          intro hout
          rw [hvlink] at hmapped
          exact hmapped (hunmapped₅ e hout)
        have hne : (env.vg.vlink e).src ≠ vv ∧ (env.vg.vlink e).dst ≠ vv := by
          simp only [VGraph.mem_outEdges, not_and, not_or] at hout
          exact hout he
        rw [hvnode₇, update_of_ne hne.1, update_of_ne hne.2]
        refine h₆.links.mapped e he ?_
        rw [hload.vlink, ← hvlink]
        exact hmapped
      · have hcount : (env.vg.vertices.countP fun v => !(s₇.vnode v).assigned) =
            (env.vg.vertices.countP fun v => !(s₆.vnode v).assigned) + 1 := by
          refine countP_eq_add_one env.vg.vertices_nodup hmem (fun v hv => ?_) (by simp [hvnode₇]) (by simp [hvv₆])
          rw [hvnode₇, update_of_ne hv]
        have hun : s₇.vinfo.unassigned = s₆.vinfo.unassigned + 1 := by rw [← hs₇]; rfl
        have hbase : s₆.vinfo.unassigned =
          ((env.vg.vertices.countP fun v => !(s₆.vnode v).assigned : Nat) : Int) := h₆.unassigned
        unfold Unassigned
        rw [hun, hbase, hcount]
        push_cast
        ring
    exact (unscoreDesires_scores env vv _ s₇).imp fun s₈ hdesires => h₇.scoresNode hdesires
  · exact unmarked_assertion

/-! ## Section 6: Runs -/

/-- The states that are reached from `init_score` by adding and removing nodes.
    In between, the type of a vnode of a vclass may be chosen. -/
inductive Reachable (env : Env R) : State R → Prop where
  | init : Reachable env (initScore env (State.parsed env))
  | add {s s' : State R} (vv : VVertex) (pv : PVertex) (deterministic isFixed skipLinks : Bool)
      (random : VEdge → Nat) (rc : Nat) : Reachable env s → vv ∈ env.vg.vertices →
      addNode env vv pv deterministic isFixed skipLinks random s = .ok (rc, s') → Reachable env s'
  | remove {s s' : State R} (vv : VVertex) : Reachable env s → vv ∈ env.vg.vertices →
      removeNode env vv s = .ok s' → Reachable env s'
  | chooseType {s : State R} (vv : VVertex) (type : String) : Reachable env s →
      Reachable env (s.setVnode vv fun v => { v with type := type })

/-- The loop of `init_score` over the vnodes counts them. -/
theorem initVnode_foldl (env : Env R) (l : List VVertex) (hs : ∀ v, (s.vnode v).assigned = false) :
    (∀ v, ((l.foldl (initVnode env) s).vnode v).assigned = false) ∧ (l.foldl (initVnode env) s).vlink = s.vlink ∧
      (l.foldl (initVnode env) s).drift = s.drift ∧
      (l.foldl (initVnode env) s).vinfo.unassigned = s.vinfo.unassigned + l.length ∧
      (l.foldl (initVnode env) s).vinfo.noConnection = s.vinfo.noConnection := by
  induction l generalizing s with
  | nil => exact ⟨hs, rfl, rfl, by simp, rfl⟩
  | cons v l ih =>
    have hstep : ∀ w, ((initVnode env s v).vnode w).assigned = false := by
      intro w
      by_cases hw : w = v
      · simp [initVnode, State.setVnode, State.sadd, hw]
      · simpa [initVnode, State.setVnode, State.sadd, hw] using hs w
    obtain ⟨hassigned, hvlink, hdrift, hun, hno⟩ := ih hstep
    refine ⟨hassigned, hvlink, hdrift.trans ?_, ?_, hno⟩
    · simp only [State.drift, ViolatedInfo.countViolations, initVnode, State.sadd, State.setVnode]
      omega
    · rw [foldl_cons, hun, length_cons]
      show s.vinfo.unassigned + 1 + _ = _
      push_cast
      ring

theorem initVlink_foldl (env : Env R) (l : List VEdge)
    (hs : ∀ e, (s.vlink e).noConnection = true ∧ (s.vlink e).linkInfo.typeUsed = .unmapped) :
    (∀ e, ((l.foldl (initVlink env) s).vlink e).noConnection = true ∧
        ((l.foldl (initVlink env) s).vlink e).linkInfo.typeUsed = .unmapped) ∧
      (l.foldl (initVlink env) s).vnode = s.vnode ∧
      (l.foldl (initVlink env) s).drift = s.drift ∧
      (l.foldl (initVlink env) s).vinfo.unassigned = s.vinfo.unassigned ∧
      (l.foldl (initVlink env) s).vinfo.noConnection = s.vinfo.noConnection + l.length := by
  induction l generalizing s with
  | nil => exact ⟨hs, rfl, rfl, rfl, by simp⟩
  | cons e l ih =>
    have hstep : ∀ e', ((initVlink env s e).vlink e').noConnection = true ∧
        ((initVlink env s e).vlink e').linkInfo.typeUsed = .unmapped := by
      intro e'
      by_cases he : e' = e
      · simp [initVlink, State.setVlink, State.sadd, he]
      · simpa [initVlink, State.setVlink, State.sadd, he] using hs e'
    obtain ⟨hlinks, hvnode, hdrift, hun, hno⟩ := ih hstep
    refine ⟨hlinks, hvnode, hdrift.trans ?_, hun, ?_⟩
    · simp only [State.drift, ViolatedInfo.countViolations, initVlink, State.sadd, State.setVlink]
      omega
    · rw [foldl_cons, hno, length_cons]
      show s.vinfo.noConnection + 1 + _ = _
      push_cast
      ring

omit [Double R] in
theorem initPlink_foldl (l : List PEdge) (s : State R) : ScoresUse s (l.foldl initPlink s) :=
  .foldl (f := initPlink) (fun _ _ => .intro rfl rfl rfl rfl) l s

theorem initScore_counters (env : Env R) : Counters env (initScore env (State.parsed env)) := by
  unfold initScore
  dsimp only
  obtain ⟨hassigned, hvlink, hdrift, hun, hno⟩ := initVnode_foldl env env.vg.vertices
    (s := { State.parsed env with score := 0, violated := 0 }) fun _ => rfl
  generalize env.vg.vertices.foldl (initVnode env)
    { State.parsed env with score := 0, violated := 0 } = s₁ at hassigned hvlink hdrift hun hno ⊢
  obtain ⟨hlinks₂, hvnode₂, hdrift₂, hun₂, hno₂⟩ := initVlink_foldl env env.vg.edges (s := s₁)
    fun e => by rw [hvlink]; exact ⟨rfl, rfl⟩
  generalize env.vg.edges.foldl (initVlink env) s₁ = s₂ at hlinks₂ hvnode₂ hdrift₂ hun₂ hno₂ ⊢
  have hplinks := initPlink_foldl env.pg.edges s₂
  generalize env.pg.edges.foldl initPlink s₂ = s₃ at hplinks ⊢
  have hframe := hplinks.2 0
  refine ⟨⟨?_, ?_, fun e _ => ?_, fun e _ hmapped => ?_⟩, ?_⟩
  · rw [hframe.drift, hdrift₂, hdrift]
    rfl
  · have hall : (env.vg.edges.countP fun e => (s₃.vlink e).noConnection) = env.vg.edges.length := by
      rw [countP_eq_length]
      intro e _
      rw [hplinks.1]
      exact (hlinks₂ e).1
    rw [hframe.noConnection, hno₂, hno, hall]
    show (0 : Int) + _ = _
    simp
  · rw [hplinks.1]
    exact iff_of_true (hlinks₂ e).1 (hlinks₂ e).2
  · rw [hplinks.1] at hmapped
    exact absurd (hlinks₂ e).2 hmapped
  · have hall : (env.vg.vertices.countP fun v => !(s₃.vnode v).assigned) = env.vg.vertices.length := by
      rw [countP_eq_length]
      intro v _
      rw [hframe.vnode, hvnode₂, hassigned v]
      rfl
    unfold Unassigned
    rw [hframe.unassigned, hun₂, hun, hall]
    show (0 : Int) + _ = _
    simp

theorem Reachable.counters (h : Reachable env s) : Counters env s := by
  induction h with
  | init => exact initScore_counters env
  | add vv pv deterministic isFixed skipLinks random rc _ hmem hadd ih =>
    exact (addNode_ends ih hmem).of_ok hadd
  | remove vv _ hmem hremove ih => exact (removeNode_ends ih hmem).of_ok hremove
  | @chooseType s vv type _ ih =>
    have hassigned : ∀ v, ((s.setVnode vv fun v => { v with type := type }).vnode v).assigned =
        (s.vnode v).assigned := by
      intro v
      by_cases hv : v = vv
      · simp [State.setVnode, hv]
      · simp [State.setVnode, hv]
    refine ⟨⟨ih.links.drift, ih.links.noConnection, ih.links.unmapped, fun e he hmapped => ?_⟩, ?_⟩
    · rw [hassigned, hassigned]
      exact ih.links.mapped e he hmapped
    · unfold Unassigned
      simp only [hassigned]
      exact ih.unassigned

/-- **Exactness of the counters.** In every reachable state all violations are accounted for, unassigned
    vnodes and unconnected vlinks are counted, a vlink is connected exactly if it is mapped, and then both
    its ends are assigned. No assertion of the marking routines fails in any call from such a state. -/
theorem counters_exact {env : Env R} {s : State R} (h : Reachable env s) : s.violated = s.vinfo.countViolations ∧
      s.vinfo.unassigned = (env.vg.vertices.countP fun v => !(s.vnode v).assigned : Nat) ∧
      s.vinfo.noConnection = (env.vg.edges.countP fun e => (s.vlink e).noConnection : Nat) ∧
      (∀ e ∈ env.vg.edges, ((s.vlink e).noConnection = false ↔ (s.vlink e).linkInfo.typeUsed ≠ .unmapped)) ∧
      (∀ e ∈ env.vg.edges, (s.vlink e).linkInfo.typeUsed ≠ .unmapped →
        (s.vnode (env.vg.vlink e).src).assigned = true ∧ (s.vnode (env.vg.vlink e).dst).assigned = true) ∧
      ∀ vv ∈ env.vg.vertices, ∀ fault : Fault, fault = .markVlinkAssigned ∨ fault = .markVlinkUnassigned →
        (∀ pv deterministic isFixed skipLinks random,
          addNode env vv pv deterministic isFixed skipLinks random s ≠ .error fault) ∧
        removeNode env vv s ≠ .error fault := by
  have hc := h.counters
  have hunmarked : ∀ fault : Fault, fault = .markVlinkAssigned ∨ fault = .markVlinkUnassigned →
      ¬fault.Unmarked := by
    rintro fault (rfl | rfl) hunmarked
    · exact hunmarked.2 rfl
    · exact hunmarked.1 rfl
  refine ⟨by have := hc.links.drift; unfold State.drift at this; omega, hc.unassigned,
    hc.links.noConnection, fun e he => ?_, hc.links.mapped, fun vv hmem fault hfault => ⟨?_, ?_⟩⟩
  · have hiff := hc.links.unmapped e he
    rw [Ne, ← hiff]
    simp
  · intro pv deterministic isFixed skipLinks random herror
    exact hunmarked fault hfault ((addNode_ends hc hmem).of_error herror)
  · intro herror
    exact hunmarked fault hfault ((removeNode_ends hc hmem).of_error herror)

/-- Two nodes with a link between them, to be mapped to two PCs with a wire between them. -/
def twoNodes : Env ℚ where
  vg :=
    { vertices := [1, 2]
      edges := [1]
      vnode := fun v =>
        { name := if v = 1 then "a" else "b", type := "pc", typecount := 1, vclass := none,
          desires := [], disallowTrivialMix := false, subnodeOf := none, subnodes := [] }
      vlink := fun _ =>
        { src := 1, dst := 2, type := "ethernet", bandwidth := 100,
          adjustToNativeBandwidth := false, fixSrcIface := false, srcIface := "",
          fixDstIface := false, dstIface := "", emulated := false, allowTrivial := false,
          allowInterswitch := true }
      vertices_nodup := nodup_one_two
      edges_nodup := nodup_one
      src_mem := src_mem_one_two
      dst_mem := dst_mem_one_two }
  pg :=
    { edges := [1]
      pnode := fun p =>
        { name := if p = 1 then "pc1" else "pc2", types := [("pc", ⟨1, false⟩)],
          typeList := [("pc", 1)], features := [], switches := [], isSwitch := false,
          trivialBw := 0, subnodeOf := none, myClass := some 0, myOwnClass := none }
      plink := fun _ =>
        { src := 1, dst := 2, srcnode := "pc1", srciface := "eth0", dstiface := "eth0",
          isType := .normal, types := ["ethernet"], bandwidth := 100, fixends := false }
      slink := fun _ _ => none
      switchPreds := fun _ p => p
      numSwitches := 0
      switches_isSwitch := noSwitches
      slink_interswitch := noSlink }
  opts := ⟨true, false, false, false, false, false⟩
  score := scoreConstants fun x _ => x
  feature := fun _ => ⟨false, false, false, false, false⟩
  ptypeMaxUsers := fun _ => -1
  pclass := fun _ => { usedMembers := 0, disabled := false, members := [("pc", [1, 2])] }
  vclass := fun _ => { members := [], weight := 1, score := 0, dominant := "" }
  vclass_keys_nodup := fun _ => nodup_nil
  vclass_members_zero := noMembers
  strLt := fun a b => decide (a < b)
  strLt_asymm := string_lt_asymm
  strLt_total := string_lt_total
  hashOrder := id
  hashOrder_perm := id_perm

/-- Both nodes can be added, and the link between them is mapped. -/
theorem counters_exact_twoNodes : ∃ s : State ℚ,
    (s.vlink 1).linkInfo = ⟨.direct, [1], []⟩ ∧ s.violated = s.vinfo.countViolations := by
  have hadd : ∃ s₁ s₂ : State ℚ, addNode twoNodes 1 1 false false false (fun _ => 0)
        (initScore twoNodes (State.parsed twoNodes)) = .ok (0, s₁) ∧
      addNode twoNodes 2 2 false false false (fun _ => 0) s₁ = .ok (0, s₂) ∧
      (s₂.vlink 1).linkInfo = ⟨.direct, [1], []⟩ := ⟨_, _, rfl, rfl, rfl⟩
  obtain ⟨s₁, s₂, h₁, h₂, hlink⟩ := hadd
  have hreach : Reachable twoNodes s₂ :=
    .add 2 2 false false false _ 0 (.add 1 1 false false false _ 0 .init (by decide) h₁) (by decide) h₂
  exact ⟨s₂, hlink, (counters_exact hreach).1⟩

end Emulab.Assign
