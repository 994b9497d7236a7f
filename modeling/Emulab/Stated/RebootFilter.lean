import Emulab.Stated.Daemon

/-! # The filter of the REBOOT command

  Nodes that should not be rebooted now are spliced out of the list while a loop
  runs over the indices that the list had before. With one node out the list is
  shorter than the loop: the last index finds nothing, and the daemon exits on the
  warning. Only the last node can be cut out.
-/

namespace Emulab.Stated

/-- The nodes that may be rebooted without force. -/
def eligible (d : Daemon) (node : Str) : Bool :=
  match d.nodes node with
  | none => false
  | some info => info.state = some ISUP || info.state = some TBFAILED || info.noretry

def hasState (d : Daemon) (node : Str) : Bool := ((d.nodes node).bind Node.state).isSome

/-- The loop gets through the list. -/
def FilterOk (d : Daemon) (nodes : List Str) : Prop :=
  (∀ node ∈ nodes, hasState d node) ∧ ∀ node ∈ nodes.dropLast, eligible d node

instance (d : Daemon) (nodes : List Str) : Decidable (FilterOk d nodes) :=
  inferInstanceAs (Decidable (_ ∧ _))

section

variable {d : Daemon} {node : Str} {nodes rest : List Str} {k n : Nat}

theorem checkRebooting_succ (hget : nodes[n]? = some node) (hstate : hasState d node) :
    checkRebooting d (k + 1) n nodes =
      checkRebooting d k (n + 1) (if eligible d node then nodes else nodes.eraseIdx n) := by
  unfold hasState at hstate
  obtain ⟨state, hstate⟩ := Option.isSome_iff_exists.mp hstate
  obtain ⟨info, hinfo, hstate⟩ := Option.bind_eq_some_iff.mp hstate
  have heligible : eligible d node = true ↔ ¬(state ≠ ISUP ∧ state ≠ TBFAILED ∧ ¬info.noretry) := by
    unfold eligible
    rw [hinfo]
    simp only [hstate, Option.some.injEq, Bool.or_eq_true, decide_eq_true_eq]
    tauto
  rw [checkRebooting]
  simp only [hget, hinfo, hstate, Option.bind_eq_bind, Option.bind_some]
  by_cases h : eligible d node = true
  · rw [if_pos h, if_neg (heligible.mp h)]
  · rw [if_neg h, if_pos (not_not.mp (mt heligible.mpr h))]

theorem checkRebooting_unknown (hget : nodes[n]? = some node) (hstate : hasState d node = false) :
    checkRebooting d (k + 1) n nodes = none := by
  have hnone : (d.nodes node).bind Node.state = none := by simpa [hasState] using hstate
  rw [checkRebooting, hget]
  cases hinfo : d.nodes node with
  | none => simp [hinfo]
  | some info =>
    rw [hinfo, Option.bind_some] at hnone
    simp [hinfo, hnone]

/-- An index is past the end of a list that has become shorter. -/
theorem checkRebooting_short (hk : 0 < k) (hlt : nodes.length < n + k) : checkRebooting d k n nodes = none := by
  induction k generalizing n nodes with
  | zero => omega
  | succ k ih =>
    cases hget : nodes[n]? with
    | none => rw [checkRebooting, hget]; rfl
    | some node =>
      have hn : n < nodes.length := (List.getElem?_eq_some_iff.mp hget).1
      cases hstate : hasState d node with
      | false => exact checkRebooting_unknown hget hstate
      | true =>
        rw [checkRebooting_succ hget hstate]
        refine ih (by omega) ?_
        split
        · omega
        · rw [List.length_eraseIdx]
          split <;> omega

/-- The loop from one index on; `pre` is what has been looked at. -/
theorem checkRebooting_eq (d : Daemon) (rest pre : List Str) :
    checkRebooting d rest.length pre.length (pre ++ rest) =
      if FilterOk d rest then some (pre ++ rest.filter (eligible d)) else none := by
  induction rest generalizing pre with
  | nil => simp [checkRebooting, FilterOk]
  | cons node rest ih =>
    have hget : (pre ++ node :: rest)[pre.length]? = some node := by simp
    cases hstate : hasState d node with
    | false =>
      have hnot : ¬FilterOk d (node :: rest) := by simp [FilterOk, hstate]
      rw [List.length_cons, checkRebooting_unknown hget hstate, if_neg hnot]
    | true =>
      rw [List.length_cons, checkRebooting_succ hget hstate]
      cases heligible : eligible d node with
      | true =>
        have hiff : FilterOk d (node :: rest) ↔ FilterOk d rest := by
          unfold FilterOk
          cases rest <;> simp [hstate, heligible]
        have hpre := ih (pre ++ [node])
        rw [List.length_append, List.length_singleton, List.append_assoc, List.singleton_append] at hpre
        rw [if_pos rfl, hpre]
        simp only [hiff, List.filter_cons_of_pos heligible, List.append_assoc, List.singleton_append]
      | false =>
        have herase : (pre ++ node :: rest).eraseIdx pre.length = pre ++ rest := by
          rw [List.eraseIdx_append_of_length_le le_rfl, Nat.sub_self, List.eraseIdx_cons_zero]
        rw [if_neg (by simp), herase]
        cases rest with
        | nil => simp [checkRebooting, FilterOk, hstate, heligible]
        | cons next rest =>
          -- the list has one node less than there are indices
          have hnot : ¬FilterOk d (node :: next :: rest) := by simp [FilterOk, heligible]
          rw [if_neg hnot]
          exact checkRebooting_short (by simp) (by simp)

theorem rebootable_eq (d : Daemon) (nodes : List Str) :
    rebootable d false nodes = if FilterOk d nodes then some (nodes.filter (eligible d)) else none := by
  have h := checkRebooting_eq d nodes []
  rw [List.nil_append, List.nil_append] at h
  exact h

end

/-- A REBOOT command that is not forced reboots the nodes that the filter leaves and
    sets a timeout for each. These are the eligible nodes exactly if each node has a
    state and all but the last are eligible; otherwise the daemon exits and no node
    is rebooted, which is right for the nodes only if none was to be. -/
theorem reboot_filter_iff (w : World) (params : Str) (d : Daemon) :
    let nodes := split (· = ',') params
    dispatch w .command params REBOOT d = (rebootable d false nodes).map
        (·.foldl (fun d node => setTimeout w.now TBCOMMAND REBOOT node w.now d) d) ∧
      (rebootable d false nodes = some (nodes.filter (eligible d)) ↔ FilterOk d nodes) ∧
      ((rebootable d false nodes).getD [] = nodes.filter (eligible d) ↔
        FilterOk d nodes ∨ ∀ node ∈ nodes, eligible d node = false) := by
  intro nodes
  refine ⟨?_, ?_, ?_⟩
  · show handleCommand w.now params REBOOT 0 false d = _
    unfold handleCommand
    rw [if_neg (by simp), if_pos rfl]
    cases rebootable d false nodes <;> rfl
  · rw [rebootable_eq]
    split
    · simp [*]
    · simp [*]
  · rw [rebootable_eq]
    split
    · simp [*]
    · simp only [Option.getD_none, *, false_or]
      rw [eq_comm, List.filter_eq_nil_iff]
      simp only [Bool.not_eq_true]

def bootingAndUp : Daemon :=
  { Daemon.start false [] with
    nodes := fun node =>
      if node = "pc1".toList then some { state := some "BOOTING".toList, mode := some [], timestamp := some 0 }
      else if node = "pc2".toList then some { state := some ISUP, mode := some [], timestamp := some 0 }
      else none }

theorem reboot_exits : ¬∀ (params : Str) (d : Daemon),
    (rebootable d false (split (· = ',') params)).getD [] = (split (· = ',') params).filter (eligible d) := by
  intro h
  have hup : (split (· = ',') "pc1,pc2".toList).filter (eligible bootingAndUp) = ["pc2".toList] := by
    decide +kernel
  have hnone : rebootable bootingAndUp false (split (· = ',') "pc1,pc2".toList) = none := by decide +kernel
  have heq := h "pc1,pc2".toList bootingAndUp
  rw [hup, hnone] at heq
  cases heq

end Emulab.Stated
