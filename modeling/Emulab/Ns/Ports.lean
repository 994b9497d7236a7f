import Emulab.Ns.FillIps

/-! # What the ports of a LAN get

  An address is handed out once within a LAN: the counter of the LAN only
  grows, and addresses in use are skipped. A port keeps what the user gave
  and gets what it lacks.
-/

namespace Emulab.Ns

variable {Node : Type}

/-! ## Handing out -/

/-- Where `_get_next_ip` goes on. -/
def LanLink.counter (lan : LanLink Node) (subnetint : Nat) : Nat := (lan.ipcounters subnetint).getD 2

/-- The hosts whose addresses were handed out on the way from `lan` to `lan'`. -/
structure HandedOut (n m : Nat) (lan lan' : LanLink Node) (hosts : List Nat) : Prop where
  sorted : hosts.Pairwise (· < ·)
  ge : ∀ i ∈ hosts, lan.counter n ≤ i
  lt : ∀ i ∈ hosts, i < lan'.counter n
  host : ∀ i ∈ hosts, i < maxHost m
  unused : ∀ i ∈ hosts, inetHltoa (n ||| i) ∉ lan.usedIps
  le : lan.counter n ≤ lan'.counter n
  used : ∀ ip ∈ lan.usedIps, ip ∈ lan'.usedIps

namespace HandedOut

variable {n m : Nat} {lan lan' lan'' : LanLink Node} {hosts hosts' : List Nat}

theorem refl (lan : LanLink Node) : HandedOut n m lan lan [] where
  sorted := .nil
  ge := by simp
  lt := by simp
  host := by simp
  unused := by simp
  le := le_rfl
  used _ h := h

theorem append (h : HandedOut n m lan lan' hosts) (h' : HandedOut n m lan' lan'' hosts') :
    HandedOut n m lan lan'' (hosts ++ hosts') where
  sorted := List.pairwise_append.mpr ⟨h.sorted, h'.sorted, fun i hi j hj => (h.lt i hi).trans_le (h'.ge j hj)⟩
  ge i hi := (List.mem_append.mp hi).elim (h.ge i) fun hi => h.le.trans (h'.ge i hi)
  lt i hi := (List.mem_append.mp hi).elim (fun hi => (h.lt i hi).trans_le h'.le) (h'.lt i)
  host i hi := (List.mem_append.mp hi).elim (h.host i) (h'.host i)
  unused i hi := (List.mem_append.mp hi).elim (h.unused i) fun hi hused => h'.unused i hi (h.used _ hused)
  le := h.le.trans h'.le
  used ip hip := h'.used ip (h.used ip hip)

end HandedOut

theorem getNextIp_spec {n m : Nat} {lan lan' : LanLink Node} {ip : Text}
    (h : getNextIp n m lan = some (ip, lan')) : ∃ i, ip = inetHltoa (n ||| i) ∧ HandedOut n m lan lan' [i] := by
  unfold getNextIp at h
  obtain ⟨i, hi, h⟩ := Option.bind_eq_some_iff.mp h
  simp only [Option.some.injEq, Prod.mk.injEq] at h
  obtain ⟨rfl, rfl⟩ := h
  have hmem := List.mem_of_find?_eq_some hi
  have hfree := List.find?_some hi
  rw [List.mem_range'_1] at hmem
  simp only [decide_eq_true_eq] at hfree
  refine ⟨i, rfl, ⟨List.pairwise_singleton _ _, ?_, ?_, ?_, ?_, ?_, fun ip h => List.mem_cons_of_mem _ h⟩⟩
  · rintro j hj
    obtain rfl := List.mem_singleton.mp hj
    exact hmem.1
  · rintro j hj
    obtain rfl := List.mem_singleton.mp hj
    simp [LanLink.counter]
  · rintro j hj
    obtain rfl := List.mem_singleton.mp hj
    omega
  · rintro j hj
    obtain rfl := List.mem_singleton.mp hj
    exact hfree
  · have : lan.counter n ≤ i := hmem.1
    simp only [LanLink.counter, Function.update_self, Option.getD_some] at this ⊢
    omega

/-! ## Ports -/

/-- A port got what it lacked. -/
structure Filled (p p' : Port) : Prop where
  hasIp : p'.ip ≠ []
  keptIp : p.ip ≠ [] → p'.ip = p.ip
  aliases : p.ipaliases <+: p'.ipaliases
  requested : p'.ipaliases.length = p.ipaliases.length + p.wantipaliases

/-- The addresses of the port that the user did not give. -/
def automatic (p p' : Port) : List Text :=
  (if p.ip = [] then [p'.ip] else []) ++ p'.ipaliases.drop p.ipaliases.length

theorem Filled.addresses_perm {p p' : Port} (h : Filled p p') :
    p'.addresses.Perm (p.addresses ++ automatic p p') := by
  obtain ⟨new, hnew⟩ := h.aliases
  unfold Port.addresses automatic
  rw [if_neg h.hasIp, ← hnew, List.drop_left]
  by_cases hip : p.ip = []
  · simp only [if_pos hip, List.nil_append]
    rw [← List.append_assoc, ← List.append_assoc]
    exact List.perm_append_comm.append_right new
  · rw [if_neg hip, if_neg hip, h.keptIp hip, List.nil_append, List.append_assoc]

theorem assignAliases_spec {n m count : Nat} {p p' : Port} {lan lan' : LanLink Node}
    (h : assignAliases n m count p lan = some (p', lan')) :
    ∃ hosts, HandedOut n m lan lan' hosts ∧ hosts.length = count ∧
      p' = { p with ipaliases := p.ipaliases ++ hosts.map fun i => inetHltoa (n ||| i) } := by
  induction count generalizing p lan with
  | zero =>
    simp only [assignAliases, Option.some.injEq, Prod.mk.injEq] at h
    obtain ⟨rfl, rfl⟩ := h
    exact ⟨[], .refl lan, rfl, by simp⟩
  | succ count ih =>
    rw [assignAliases] at h
    obtain ⟨⟨ip, lan₁⟩, hnext, h⟩ := Option.bind_eq_some_iff.mp h
    obtain ⟨i, rfl, hone⟩ := getNextIp_spec hnext
    obtain ⟨hosts, hrest, hlen, rfl⟩ := ih h
    exact ⟨i :: hosts, hone.append hrest, by simp [hlen], by simp⟩

theorem assignIp_spec {n m : Nat} {p p' : Port} {lan lan' : LanLink Node}
    (h : assignIp n m p lan = some (p', lan')) :
    ∃ hosts, HandedOut n m lan lan' hosts ∧ p'.ip ≠ [] ∧ (p.ip ≠ [] → p'.ip = p.ip) ∧
      p'.ipaliases = p.ipaliases ∧ p'.wantipaliases = p.wantipaliases ∧
      (if p.ip = [] then [p'.ip] else []) = hosts.map fun i => inetHltoa (n ||| i) := by
  unfold assignIp at h
  split at h
  · rename_i hip
    obtain ⟨⟨ip, lan₁⟩, hnext, h⟩ := Option.bind_eq_some_iff.mp h
    simp only [Option.some.injEq, Prod.mk.injEq] at h
    obtain ⟨rfl, rfl⟩ := h
    obtain ⟨i, rfl, hone⟩ := getNextIp_spec hnext
    exact ⟨[i], hone, inetHltoa_ne_nil _, fun hne => absurd hip hne, rfl, rfl, by rw [if_pos hip]; rfl⟩
  · rename_i hip
    simp only [Option.some.injEq, Prod.mk.injEq] at h
    obtain ⟨rfl, rfl⟩ := h
    exact ⟨[], .refl lan, hip, fun _ => rfl, rfl, rfl, by rw [if_neg hip]; rfl⟩

def addressesOn (port : Node × Nat → Port) (nodelist : List (Node × Nat)) : List Text :=
  nodelist.flatMap fun np => (port np).addresses

/-- Those of them that were assigned. -/
def automaticOn (port port' : Node × Nat → Port) (nodelist : List (Node × Nat)) : List Text :=
  nodelist.flatMap fun np => automatic (port np) (port' np)

theorem addressesOn_perm {port port' : Node × Nat → Port} {nodelist : List (Node × Nat)}
    (h : ∀ np ∈ nodelist, Filled (port np) (port' np)) :
    (addressesOn port' nodelist).Perm (addressesOn port nodelist ++ automaticOn port port' nodelist) := by
  refine List.Perm.trans ?_ (List.flatMap_append_perm _ _ _).symm
  exact List.Perm.flatMap_left _ fun np hnp => (h np hnp).addresses_perm

variable [DecidableEq Node]

theorem assignPort_spec {n m : Nat} {st st' : (Node × Nat → Port) × LanLink Node} {np : Node × Nat}
    (h : assignPort n m st np = some st') :
    ∃ hosts p', HandedOut n m st.2 st'.2 hosts ∧ st'.1 = Function.update st.1 np p' ∧
      Filled (st.1 np) p' ∧ automatic (st.1 np) p' = hosts.map fun i => inetHltoa (n ||| i) := by
  unfold assignPort at h
  obtain ⟨⟨p₁, lan₁⟩, hip, h⟩ := Option.bind_eq_some_iff.mp h
  obtain ⟨⟨p₂, lan₂⟩, haliases, h⟩ := Option.bind_eq_some_iff.mp h
  obtain rfl := Option.some.inj h
  obtain ⟨hosts, hout, hne, hkept, hsame, hwant, hauto⟩ := assignIp_spec hip
  obtain ⟨hosts', hout', hlen, rfl⟩ := assignAliases_spec haliases
  refine ⟨hosts ++ hosts', _, hout.append hout', rfl, ⟨hne, hkept, ?_, ?_⟩, ?_⟩
  · exact ⟨_, by rw [hsame]⟩
  · simp [hsame, hlen, hwant]
  · simp only [automatic, hsame, List.drop_left, List.map_append, hauto]

theorem assignPorts_spec {n m : Nat} {nodelist : List (Node × Nat)} (hnodup : nodelist.Nodup)
    {st st' : (Node × Nat → Port) × LanLink Node} (h : nodelist.foldlM (assignPort n m) st = some st') :
    ∃ hosts, HandedOut n m st.2 st'.2 hosts ∧ (∀ np ∉ nodelist, st'.1 np = st.1 np) ∧
      (∀ np ∈ nodelist, Filled (st.1 np) (st'.1 np)) ∧
      automaticOn st.1 st'.1 nodelist = hosts.map fun i => inetHltoa (n ||| i) := by
  induction nodelist generalizing st with
  | nil =>
    obtain rfl : st = st' := Option.some.inj h
    exact ⟨[], .refl _, fun _ _ => rfl, by simp, rfl⟩
  | cons np nodelist ih =>
    obtain ⟨hnp, hnodup⟩ := List.nodup_cons.mp hnodup
    rw [List.foldlM_cons] at h
    obtain ⟨st₁, hone, h⟩ := Option.bind_eq_some_iff.mp h
    obtain ⟨hosts, p', hout, hst₁, hfilled, hauto⟩ := assignPort_spec hone
    obtain ⟨hosts', hout', hothers, hall, hautos⟩ := ih hnodup h
    -- the port itself is not touched again, the others were not yet
    have hself : st'.1 np = p' := by rw [hothers np hnp, hst₁, Function.update_self]
    have hold : ∀ x ∈ nodelist, st₁.1 x = st.1 x := by
      intro x hx
      rw [hst₁, Function.update_of_ne]
      rintro rfl
      exact hnp hx
    refine ⟨hosts ++ hosts', hout.append hout', ?_, ?_, ?_⟩
    · intro x hx
      simp only [List.mem_cons, not_or] at hx
      rw [hothers x hx.2, hst₁, Function.update_of_ne hx.1]
    · intro x hx
      rcases List.mem_cons.mp hx with rfl | hx
      · rw [hself]
        exact hfilled
      · exact hold x hx ▸ hall x hx
    · have hrest : automaticOn st.1 st'.1 nodelist = automaticOn st₁.1 st'.1 nodelist :=
        List.flatMap_congr fun x hx => by rw [hold x hx]
      rw [List.map_append, ← hauto, ← hautos, ← hrest, ← hself]
      rfl

end Emulab.Ns
