import Emulab.Ns.Assignment

/-! # All addresses differ

  Within a LAN an address that was handed out is the only one with its host
  part, as long as the user wrote addresses in the form that the table of
  used addresses compares. Between LANs the subnets tell addresses apart.
-/

namespace Emulab.Ns

open Subnet (mask Overlap)

variable {Node Lan : Type}

theorem number_handedOut {m n i : Nat} (hm : Contiguous m) (haligned : n &&& m = n) (hi : i < maxHost m) :
    number (inetHltoa (n ||| i)) = n + i ∧ (n + i) &&& m = n ∧ (n + i) &&& maxHost m = i := by
  obtain ⟨bits, hbits, rfl⟩ := hm
  rw [maxHost_mask hbits] at hi ⊢
  have hlt : i < 2 ^ bits := by omega
  have hadd := Subnet.or_eq_add hbits haligned hlt
  have hand := Subnet.or_and_mask hbits haligned hlt
  have hdvd : n % 2 ^ bits = 0 := by
    rw [← haligned, Subnet.and_mask_eq hbits, Nat.mul_mod_left]
  have h32 : n + i < 2 ^ 32 := by
    have hn : n < 2 ^ 32 := haligned ▸ and_mask_lt hbits n
    have hle : 2 ^ bits ≤ 2 ^ 32 := Nat.pow_le_pow_right (by omega) hbits
    rw [← hadd]
    exact Nat.or_lt_two_pow hn (by omega)
  refine ⟨?_, hadd ▸ hand, ?_⟩
  · rw [hadd, number_inetHltoa h32]
  · rw [Nat.and_two_pow_sub_one_eq_mod, Nat.add_mod, hdvd, Nat.zero_add, Nat.mod_mod, Nat.mod_eq_of_lt hlt]

variable {s cur : Simulator Node Lan} {order : List Lan} {l l' : Lan} {n n' : Nat}

section

variable (h : LanFilled s cur.port l n)
include h

theorem LanFilled.automatic (hm : Contiguous (s.netmask l)) {ip : Text}
    (hip : ip ∈ automaticOn s.port cur.port (s.lanlink l).nodelist) :
    number ip &&& s.netmask l = n ∧ number ip &&& maxHost (s.netmask l) ≠ 0 ∧
      number ip &&& maxHost (s.netmask l) ≠ maxHost (s.netmask l) ∧
        inetHltoa (number ip) = ip ∧ ip ∉ s.addresses l := by
  obtain ⟨hosts, -, hmem, hauto⟩ := h.hosts
  rw [hauto] at hip
  obtain ⟨i, hi, rfl⟩ := List.mem_map.mp hip
  obtain ⟨hge, hlt, hnew⟩ := hmem i hi
  obtain ⟨hnumber, hand, hhost⟩ := number_handedOut hm h.aligned hlt
  refine ⟨by rw [hnumber, hand], ?_, ?_, ?_, hnew⟩
  · rw [hnumber, hhost]
    omega
  · rw [hnumber, hhost]
    omega
  · obtain ⟨bits, hbits, hmask⟩ := hm
    rw [hnumber, ← Subnet.or_eq_add hbits (hmask ▸ h.aligned) (i := i)]
    rw [hmask, maxHost_mask hbits] at hlt
    omega

theorem LanFilled.mem_subnet (hm : Contiguous (s.netmask l)) {ip : Text}
    (hip : ip ∈ addressesOn cur.port (s.lanlink l).nodelist) : number ip &&& s.netmask l = n := by
  rcases List.mem_append.mp ((addressesOn_perm h.filled).mem_iff.mp hip) with hip | hip
  · exact h.user ip hip
  · exact (h.automatic hm hip).1

theorem LanFilled.assigns {ip : Text}
    (hip : ip ∈ automaticOn s.port cur.port (s.lanlink l).nodelist) : s.Assigns l := by
  obtain ⟨np, hnp, hip⟩ := List.mem_flatMap.mp hip
  refine ⟨np, hnp, ?_⟩
  by_contra hnone
  rw [not_or, Nat.not_lt, Nat.le_zero] at hnone
  obtain ⟨hne, hzero⟩ := hnone
  have hlen := (h.filled np hnp).requested
  rw [hzero, Nat.add_zero] at hlen
  rw [Ns.automatic, if_neg hne, List.nil_append, List.drop_of_length_le hlen.le] at hip
  cases hip

theorem LanFilled.nodup (hm : Contiguous (s.netmask l)) (huser : ((s.addresses l).map number).Nodup)
    (hcanonical : s.Assigns l → ∀ ip ∈ s.addresses l, inetHltoa (number ip) = ip) :
    ((addressesOn cur.port (s.lanlink l).nodelist).map number).Nodup := by
  rw [((addressesOn_perm h.filled).map number).nodup_iff, List.map_append]
  refine List.nodup_append.mpr ⟨huser, ?_, ?_⟩
  · obtain ⟨hosts, hsorted, hmem, hauto⟩ := h.hosts
    have hnumbers : (automaticOn s.port cur.port (s.lanlink l).nodelist).map number = hosts.map (n + ·) := by
      rw [hauto, List.map_map]
      exact List.map_congr_left fun i hi => (number_handedOut hm h.aligned (hmem i hi).2.1).1
    rw [hnumbers]
    exact (hsorted.imp fun hlt => Nat.ne_of_lt hlt).map (n + ·) fun _ _ hne heq => hne (by omega)
  · -- `_get_next_ip` compares the texts
    intro x hx y hy heq
    obtain ⟨ip, hip, rfl⟩ := List.mem_map.mp hx
    obtain ⟨ip', hip', rfl⟩ := List.mem_map.mp hy
    obtain ⟨-, -, -, hcanonical', hnew⟩ := h.automatic hm hip'
    have hsame : ip = ip' := by
      rw [← hcanonical (h.assigns hip') ip hip, ← hcanonical', heq]
    exact hnew (hsame ▸ hip)

theorem LanFilled.ne (h' : LanFilled s cur.port l' n')
    (hm : Contiguous (s.netmask l)) (hm' : Contiguous (s.netmask l')) (hapart : Apart s (l, n) (l', n'))
    (hown : s.Assigns l → ∀ ip ∈ s.addresses l, ∀ ip' ∈ s.addresses l',
      ¬Overlap (number ip &&& s.netmask l) (s.netmask l) (number ip' &&& s.netmask l') (s.netmask l'))
    {ip ip' : Text} (hip : ip ∈ automaticOn s.port cur.port (s.lanlink l).nodelist)
    (hip' : ip' ∈ addressesOn cur.port (s.lanlink l').nodelist) : number ip ≠ number ip' := by
  intro heq
  have hover : Overlap n (s.netmask l) n' (s.netmask l') :=
    ⟨number ip, (h.automatic hm hip).1, heq ▸ h'.mem_subnet hm' hip'⟩
  by_cases hnil : s.addresses l = [] ∨ s.addresses l' = []
  · exact hapart hnil hover
  · rw [not_or] at hnil
    obtain ⟨a, ha⟩ := List.exists_mem_of_ne_nil _ hnil.1
    obtain ⟨a', ha'⟩ := List.exists_mem_of_ne_nil _ hnil.2
    refine hown (h.assigns hip) a ha a' ha' ?_
    rwa [h.user a ha, h'.user a' ha']

end

variable [DecidableEq Node] [DecidableEq Lan]

/-- The assignment is sound in every order of the LANs in which `fill_ips` finds what it relies on. -/
theorem simulatorRun_assigned (hparsed : Parsed s order) (haddr : WellAddressed s order)
    (hok : Machine.Meets fillIps (Informed s order) s order)
    (hrun : Machine.run fillIps s order = some cur) : Assigned s order cur := by
  have hnone : ∀ l ∈ order, l ∈ order ∧ l ∉ s.visited := by
    intro l hl
    exact ⟨hl, by simp [Simulator.visited, hparsed.taken]⟩
  obtain ⟨hinv, hall⟩ := (Inv.init hparsed).run hparsed haddr hparsed.once hnone hok hrun
  have hinformed := Machine.forall_of_meets hok hrun
  have htaken : ∀ l ∈ order, ∃ n, (l, n) ∈ cur.taken := by
    intro l hl
    obtain ⟨⟨_, n⟩, hmem, rfl⟩ := List.mem_map.mp (hall l (Or.inl hl))
    exact ⟨n, hmem⟩
  have hapart : ∀ l n l' n', (l, n) ∈ cur.taken → (l', n') ∈ cur.taken → l ≠ l' → Apart s (l, n) (l', n') := by
    intro l n l' n' hmem hmem' hne
    have : Std.Symm (Apart s) := ⟨fun a b hab hnil hover => hab hnil.symm hover.symm⟩
    exact hinv.apart.forall hmem hmem' fun heq => hne (congrArg Prod.fst heq)
  have hcontiguous : ∀ l ∈ order, Contiguous (s.netmask l) := fun l hl => (hparsed.netmask l hl).2
  have hne : ∀ l ∈ order, ∀ l' ∈ order, l ≠ l' → ∀ ip ∈ automaticOn s.port cur.port (s.lanlink l).nodelist,
      ∀ ip' ∈ addressesOn cur.port (s.lanlink l').nodelist, number ip ≠ number ip' := by
    intro l hl l' hl' hne ip hip ip' hip'
    obtain ⟨n, hn⟩ := htaken l hl
    obtain ⟨n', hn'⟩ := htaken l' hl'
    obtain ⟨c, hc⟩ := hinformed l hl
    exact (hinv.filled l n hn).ne (hinv.filled l' n' hn') (hcontiguous l hl) (hcontiguous l' hl')
      (hapart l n l' n' hn hn' hne)
      (fun hassigns a ha a' ha' => hc.own hassigns a ha l' hl' hne.symm a' ha') hip hip'
  have hdistinct := haddr.distinct
  rw [List.map_flatMap, List.nodup_flatMap] at hdistinct
  have huser : ∀ l ∈ order, ∀ l' ∈ order, l ≠ l' →
      List.Disjoint ((s.addresses l).map number) ((s.addresses l').map number) := by
    have : Std.Symm (Function.onFun List.Disjoint fun l => (s.addresses l).map number) :=
      ⟨fun a b h => h.symm⟩
    exact fun l hl l' hl' hne => hdistinct.2.forall hl hl' hne
  refine ⟨?_, ?_, ?_, ?_⟩
  · intro l hl
    obtain ⟨n, hn⟩ := htaken l hl
    exact (hinv.filled l n hn).filled
  · rw [List.map_flatMap, List.nodup_flatMap]
    refine ⟨fun l hl => ?_, ?_⟩
    · obtain ⟨n, hn⟩ := htaken l hl
      obtain ⟨c, hc⟩ := hinformed l hl
      exact (hinv.filled l n hn).nodup (hcontiguous l hl) (hdistinct.1 l hl) hc.canonical
    · refine hparsed.once.pairwise_of_forall_ne fun l hl l' hl' hll x hx hx' => ?_
      obtain ⟨ip, hip, rfl⟩ := List.mem_map.mp hx
      obtain ⟨ip', hip', heq⟩ := List.mem_map.mp hx'
      obtain ⟨n, hn⟩ := htaken l hl
      obtain ⟨n', hn'⟩ := htaken l' hl'
      have hperm := addressesOn_perm (hinv.filled l n hn).filled
      have hperm' := addressesOn_perm (hinv.filled l' n' hn').filled
      rcases List.mem_append.mp (hperm.mem_iff.mp hip) with hgiven | hauto
      · rcases List.mem_append.mp (hperm'.mem_iff.mp hip') with hgiven' | hauto'
        · exact huser l hl l' hl' hll (List.mem_map_of_mem hgiven) (heq ▸ List.mem_map_of_mem hgiven')
        · exact hne l' hl' l hl hll.symm ip' hauto' ip hip heq
      · exact hne l hl l' hl' hll ip hauto ip' hip' heq.symm
  · intro l hl
    obtain ⟨n, hn⟩ := htaken l hl
    have hfilled := hinv.filled l n hn
    refine ⟨n, hn, hfilled.user, fun ip hip => ?_⟩
    obtain ⟨hsubnet, hzero, hones, -⟩ := hfilled.automatic (hcontiguous l hl) hip
    exact ⟨hsubnet, hzero, hones⟩
  · intro l n l' n' hn hn' hne hnil
    exact hapart l n l' n' hn hn' hne (Or.inl hnil)

/-- Two LANs of two nodes. The user gave one address, in the subnet that
    `get_subnet` looks at first. -/
def sharedSubnet : Simulator Nat Bool where
  subnetBase := .one 10
  port np := if np = (2, 0) then { ip := dotted 10 1 1 2 } else {}
  lanlink l := if l then { nodelist := [(0, 0), (1, 0)] } else { nodelist := [(2, 0), (3, 0)] }

theorem sharedSubnet_netmask (l : Bool) : sharedSubnet.netmask l = mask 32 8 := by
  cases l <;> decide

theorem sharedSubnet_parsed {order : List Bool} (hnodup : order.Nodup) : Parsed sharedSubnet order where
  once := hnodup
  nodup l _ := by cases l <;> decide
  disjoint l _ l' _ hne := by cases l <;> cases l' <;> first | exact absurd rfl hne | decide
  accepted l _ := by cases l <;> unfold Port.Accepted <;> decide
  netmask l _ := ⟨by cases l <;> decide, 8, by decide, sharedSubnet_netmask l⟩
  unused l _ := by cases l <;> exact ⟨rfl, rfl⟩
  subnets := rfl
  taken := rfl

/-- The LAN whose subnet the user chose is visited first. -/
theorem simulatorRun_assigned_shared : ∃ cur, Machine.run fillIps sharedSubnet [false, true] = some cur ∧
    Assigned sharedSubnet [false, true] cur := by
  have haddr : WellAddressed sharedSubnet [false, true] := ⟨by decide, by decide⟩
  have hfirst : (fillIps sharedSubnet false).map (·.subnets) = some [(167837952, mask 32 8)] := by
    decide +kernel
  have hmeets : Machine.Meets fillIps (Informed sharedSubnet [false, true]) sharedSubnet [false, true] := by
    refine ⟨⟨fun hnil => absurd hnil (by decide), fun _ ip _ l' _ hne => ?_, fun _ => by decide⟩,
      fun cur hcur => ⟨⟨fun _ l' _ ip hip subnet hmem hokay => ?_, fun _ ip hip => ?_, fun _ => by decide⟩,
        fun _ _ => trivial⟩⟩
    · cases l' with
      | false => exact absurd rfl hne
      | true => exact fun ip' hip' => absurd hip' (by revert ip'; decide)
    · -- the address of the first LAN is known by now
      have hip' : ip = dotted 10 1 1 2 := by
        cases l' with
        | false => exact List.mem_singleton.mp hip
        | true => exact absurd hip (by revert ip; decide)
      have hsubnet : number (dotted 10 1 1 2) &&& mask 32 8 = 167837952 := by decide
      rw [hcur, Option.map_some, Option.some.injEq] at hfirst
      rw [sharedSubnet_netmask] at hmem hokay ⊢
      rw [sharedSubnet_netmask, hip', hsubnet]
      obtain ⟨n, hn, haligned⟩ := candidate_aligned (by decide) hmem
      rw [number_eq hn]
      have hentries : ∀ e ∈ cur.subnets, Entry e := by
        rw [hfirst]
        intro e he
        obtain rfl := List.mem_singleton.mp he
        exact ⟨⟨8, by decide, rfl⟩, by decide⟩
      exact (not_overlap_of_okay hentries ⟨8, by decide, rfl⟩ hn haligned hokay
        (hfirst ▸ List.mem_singleton.mpr rfl)).2
    · exact absurd hip (by revert ip; decide)
  obtain ⟨cur, hrun⟩ : ∃ cur, Machine.run fillIps sharedSubnet [false, true] = some cur :=
    Option.isSome_iff_exists.mp (by decide +kernel)
  exact ⟨cur, hrun, simulatorRun_assigned (sharedSubnet_parsed (by decide)) haddr hmeets hrun⟩

/-- In the other order `get_subnet` takes the subnet of the user, and both LANs get the same addresses. -/
theorem shared_in_hash_order : ¬∀ (s : Simulator Nat Bool) (order : List Bool) (cur : Simulator Nat Bool),
    Parsed s order → WellAddressed s order → Machine.run fillIps s order = some cur → Assigned s order cur := by
  intro h
  have hrun : (Machine.run fillIps sharedSubnet [true, false]).map (fun cur =>
      decide (([true, false].flatMap fun l =>
        addressesOn cur.port (sharedSubnet.lanlink l).nodelist).map number).Nodup) = some false := by
    decide +kernel
  obtain ⟨cur, hcur, hdup⟩ := Option.map_eq_some_iff.mp hrun
  have hassigned := h sharedSubnet [true, false] cur (sharedSubnet_parsed (by decide)) ⟨by decide, by decide⟩ hcur
  exact of_decide_eq_false hdup hassigned.distinct

end Emulab.Ns
