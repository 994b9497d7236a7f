import Emulab.Ns.FillIps

/-! # The subnets of links and LANs

  Masks are contiguous, and every subnet in the table of the simulator starts
  where its mask says. For such subnets the two mask tests of `get_subnet`
  find out whether two of them overlap.
-/

namespace Emulab.Ns

open Bytes
open Subnet (mask Overlap)

/-- The number of a text that was accepted. -/
def number (ip : Text) : Nat := (inetAtohl ip).getD 0

theorem number_eq {ip : Text} {n : Nat} (h : inetAtohl ip = some n) : number ip = n := by
  rw [number, h]
  rfl

theorem number_inetHltoa {n : Nat} (h : n < 2 ^ 32) : number (inetHltoa n) = n := by
  rw [number_eq (inetAtohl_inetHltoa n), Nat.mod_eq_of_lt h]

theorem IP.inetAtohl_eq {ip : Text} (h : IP ip) : inetAtohl ip = some (number ip) := by
  obtain ⟨n, hn⟩ := h.hasNumber
  rw [number_eq hn, hn]

/-! ## Masks -/

/-- The mask of a subnet with `bits` bits for the hosts. -/
def Contiguous (m : Nat) : Prop := ∃ bits ≤ 32, m = mask 32 bits

variable {bits : Nat}

theorem and_mask_lt (hle : bits ≤ 32) (n : Nat) : n &&& mask 32 bits < 2 ^ 32 := by
  rw [Subnet.and_mask_eq hle]
  exact (Nat.div_mul_le_self _ _).trans_lt (Nat.mod_lt _ (by positivity))

theorem maxHost_mask (hle : bits ≤ 32) : maxHost (mask 32 bits) = 2 ^ bits - 1 := by
  have hpow : 2 ^ bits ≤ 2 ^ 32 := Nat.pow_le_pow_right (by omega) hle
  have hpos : 0 < 2 ^ bits := by positivity
  unfold maxHost mask
  rw [Nat.mod_eq_of_lt (by omega)]
  omega

theorem AcceptsNetmask.bits_le {netmask : Text} (h : AcceptsNetmask netmask)
    (hle : bits ≤ 32) (hm : number netmask = mask 32 bits) : bits ≤ 16 := by
  have hand : mask 32 bits &&& mask 32 16 = mask 32 16 := h.2 _ (hm ▸ h.1.inetAtohl_eq)
  by_contra hnot
  rw [Nat.and_comm, Subnet.mask_and_mask (by omega) hle] at hand
  have hlt : 2 ^ 16 < 2 ^ bits := Nat.pow_lt_pow_right (by omega) (by omega)
  have hpow : 2 ^ bits ≤ 2 ^ 32 := Nat.pow_le_pow_right (by omega) hle
  unfold mask at hand
  omega

/-! ## The subnets that `get_subnet` looks at -/

theorem mem_countUp {lo hi inc x : Nat} (hinc : 0 < inc) (h : x ∈ countUp lo hi inc) :
    ∃ t, x = lo + inc * t ∧ x < hi := by
  obtain ⟨t, ht, rfl⟩ := List.mem_range'.mp h
  refine ⟨t, rfl, ?_⟩
  have hle : (t + 1) * inc ≤ hi - lo + (inc - 1) := (Nat.le_div_iff_mul_le hinc).mp ht
  rw [Nat.add_mul, Nat.mul_comm t] at hle
  omega

theorem dvd_of_mem_octets {e x : Nat} (he : e ≤ 8) (h : x ∈ octets (256 - 2 ^ e)) : 2 ^ e ∣ x ∧ x < 256 := by
  have hpos : 0 < 2 ^ e := by positivity
  have hle : 2 ^ e ≤ 2 ^ 8 := Nat.pow_le_pow_right (by omega) he
  unfold octets at h
  split at h
  · rename_i hne
    rw [show 256 - (256 - 2 ^ e) = 2 ^ e by omega] at h
    obtain ⟨t, rfl, hlt⟩ := mem_countUp hpos h
    exact ⟨Nat.dvd_add (dvd_refl _) (Nat.dvd_mul_right _ _), by omega⟩
  · obtain ⟨t, rfl, hlt⟩ := mem_countUp (by omega) h
    obtain rfl : t = 0 := by omega
    exact ⟨dvd_zero _, by omega⟩

theorem mask_octets (hle : bits ≤ 16) :
    mask 32 bits >>> 8 % 256 = 256 - 2 ^ (bits - 8) ∧ mask 32 bits % 256 = 256 - 2 ^ min bits 8 := by
  interval_cases bits <;> decide

theorem SubnetBase.a_lt (base : SubnetBase) : base.a < 256 := by
  cases base with
  | one a => exact a.isLt
  | two a b => exact a.isLt

theorem SubnetBase.maxB_le (base : SubnetBase) : base.maxB ≤ 256 := by
  cases base with
  | one a => exact Nat.le_of_ble_eq_true rfl
  | two a b => exact b.isLt

theorem candidate_aligned {base : SubnetBase} {subnet : Text} (hle : bits ≤ 16)
    (h : subnet ∈ candidates base (mask 32 bits)) : ∃ n, inetAtohl subnet = some n ∧ n &&& mask 32 bits = n := by
  simp only [candidates, List.mem_flatMap, List.mem_map] at h
  obtain ⟨i, hi, j, hj, k, hk, rfl⟩ := h
  obtain ⟨hC, hD⟩ := mask_octets hle
  rw [hC] at hj
  rw [hD] at hk
  obtain ⟨hdvdj, hltj⟩ := dvd_of_mem_octets (by omega) hj
  obtain ⟨hdvdk, hltk⟩ := dvd_of_mem_octets (Nat.min_le_right _ _) hk
  obtain ⟨-, -, hlti⟩ := mem_countUp (by omega) hi
  have hi256 : i < 256 := hlti.trans_le base.maxB_le
  have ha := base.a_lt
  refine ⟨_, inetAtohl_dotted _ _ _ _, ?_⟩
  rw [or_bytes_eq _ hi256 hltj hltk, Subnet.and_mask_eq (by omega), Nat.mod_eq_of_lt (by omega)]
  apply Nat.div_mul_cancel
  -- the bits of the hosts are zero, in the last octet or in the last two
  have hhigh : 2 ^ bits ∣ 2 ^ 24 * base.a + 2 ^ 16 * i :=
    Nat.dvd_add (Dvd.dvd.mul_right (pow_dvd_pow 2 (by omega)) _) (Dvd.dvd.mul_right (pow_dvd_pow 2 (by omega)) _)
  rw [Nat.add_assoc]
  refine Nat.dvd_add hhigh ?_
  rcases le_total bits 8 with h8 | h8
  · rw [Nat.min_eq_left h8] at hdvdk
    exact Nat.dvd_add (Dvd.dvd.mul_right (pow_dvd_pow 2 h8) _) hdvdk
  · rw [Nat.min_eq_right h8] at hdvdk
    obtain rfl : k = 0 := Nat.eq_zero_of_dvd_of_lt hdvdk hltk
    rw [Nat.add_zero, show (2 : Nat) ^ bits = 2 ^ 8 * 2 ^ (bits - 8) by rw [← pow_add, Nat.add_sub_cancel' h8]]
    exact Nat.mul_dvd_mul_left _ hdvdj

/-! ## The table of subnets -/

/-- An entry of the table starts where its mask says. -/
structure Entry (e : Nat × Nat) : Prop where
  contiguous : Contiguous e.2
  aligned : e.1 &&& e.2 = e.1

theorem not_overlap_of_okay {subnets : List (Nat × Nat)} {m n : Nat} {subnet : Text}
    (hentries : ∀ e ∈ subnets, Entry e) (hm : Contiguous m) (hn : inetAtohl subnet = some n)
    (haligned : n &&& m = n) (hokay : okay subnets m subnet) {e : Nat × Nat} (he : e ∈ subnets) :
    e.1 ≠ n ∧ ¬Overlap n m e.1 e.2 := by
  obtain ⟨bits, hbits, rfl⟩ := hm
  obtain ⟨⟨bits', hbits', hmask⟩, haligned'⟩ := hentries e he
  unfold okay at hokay
  rw [hn] at hokay
  have htest := List.all_eq_true.mp hokay e he
  simp only [ne_eq, decide_eq_true_eq] at htest
  refine ⟨htest.1, ?_⟩
  rw [hmask] at htest haligned' ⊢
  rw [Subnet.overlap_iff hbits hbits' haligned haligned']
  exact htest.2

theorem useSubnet_eq {subnets : List (Nat × Nat)} {subnet netmask : Text} {n m : Nat}
    (hn : inetAtohl subnet = some n) (hm : inetAtohl netmask = some m) :
    useSubnet subnets subnet netmask = some ((n, m) :: subnets.filter (·.1 ≠ n)) := by
  unfold useSubnet
  rw [hn, hm]
  rfl

theorem getSubnet_spec {base : SubnetBase} {subnets subnets' : List (Nat × Nat)} {netmask subnet : Text}
    (hm : inetAtohl netmask = some (mask 32 bits)) (hle : bits ≤ 16)
    (h : getSubnet base subnets netmask = some (subnet, subnets')) :
    ∃ n, inetAtohl subnet = some n ∧ n &&& mask 32 bits = n ∧ subnet ∈ candidates base (mask 32 bits) ∧
      okay subnets (mask 32 bits) subnet ∧ subnets' = (n, mask 32 bits) :: subnets.filter (·.1 ≠ n) := by
  unfold getSubnet at h
  rw [hm, Option.bind_eq_bind, Option.bind_some] at h
  obtain ⟨found, hfind, h⟩ := Option.bind_eq_some_iff.mp h
  obtain ⟨table, huse, h⟩ := Option.bind_eq_some_iff.mp h
  simp only [Option.some.injEq, Prod.mk.injEq] at h
  obtain ⟨rfl, rfl⟩ := h
  have hmem := List.mem_of_find?_eq_some hfind
  obtain ⟨n, hn, haligned⟩ := candidate_aligned hle hmem
  rw [useSubnet_eq hn hm] at huse
  exact ⟨n, hn, haligned, hmem, List.find?_some hfind, (Option.some.inj huse).symm⟩

/-- What the first loop of `fill_ips` leaves, after the addresses `ips`. -/
structure Scanned (m : Nat) (ips : List Text) (st st' : Scan) : Prop where
  used : ∀ a, a ∈ st'.usedIps ↔ a ∈ ips ∨ a ∈ st.usedIps
  entered : ∀ e ∈ st'.subnets, e ∈ st.subnets ∨ ∃ ip ∈ ips, e = (number ip &&& m, m)
  stays : ∀ e ∈ st.subnets, e ∈ st'.subnets ∨ ∃ ip ∈ ips, e.1 = number ip &&& m
  subnet : (ips = [] ∧ st' = st) ∨ ∃ ip ∈ ips, st'.subnet = inetHltoa (number ip &&& m)

theorem note_spec {netmask : Text} {m : Nat} {st st' : Scan} {ip : Text}
    (hm : inetAtohl netmask = some m) (hlt : m < 2 ^ 32) (h : note netmask m st ip = some st') :
    Scanned m [ip] st st' := by
  unfold note at h
  obtain ⟨n, hn, h⟩ := Option.bind_eq_some_iff.mp h
  obtain ⟨table, huse, h⟩ := Option.bind_eq_some_iff.mp h
  obtain rfl := Option.some.inj h
  have hand : n &&& m < 2 ^ 32 := (Nat.and_le_right).trans_lt hlt
  have hsubnet : inetAtohl (inetHltoa (n &&& m)) = some (n &&& m) := by
    rw [inetAtohl_inetHltoa, Nat.mod_eq_of_lt hand]
  rw [useSubnet_eq hsubnet hm] at huse
  obtain rfl := Option.some.inj huse
  have hnumber := number_eq hn
  refine ⟨by simp, ?_, ?_, Or.inr ⟨ip, by simp, by rw [hnumber]⟩⟩
  · intro e he
    rcases List.mem_cons.mp he with rfl | he
    · exact Or.inr ⟨ip, by simp, by rw [hnumber]⟩
    · exact Or.inl (List.mem_filter.mp he).1
  · intro e he
    by_cases heq : e.1 = n &&& m
    · exact Or.inr ⟨ip, by simp, by rw [hnumber, heq]⟩
    · exact Or.inl (List.mem_cons_of_mem _ (List.mem_filter.mpr ⟨he, by simpa using heq⟩))

theorem Scanned.trans {m : Nat} {ips ips' : List Text} {st st' st'' : Scan} (h : Scanned m ips st st')
    (h' : Scanned m ips' st' st'') : Scanned m (ips ++ ips') st st'' where
  used a := by
    rw [h'.used, h.used, List.mem_append]
    tauto
  entered e he := by
    rcases h'.entered e he with he | ⟨ip, hip, rfl⟩
    · rcases h.entered e he with he | ⟨ip, hip, rfl⟩
      · exact Or.inl he
      · exact Or.inr ⟨ip, List.mem_append_left _ hip, rfl⟩
    · exact Or.inr ⟨ip, List.mem_append_right _ hip, rfl⟩
  stays e he := by
    rcases h.stays e he with he | ⟨ip, hip, heq⟩
    · rcases h'.stays e he with he | ⟨ip, hip, heq⟩
      · exact Or.inl he
      · exact Or.inr ⟨ip, List.mem_append_right _ hip, heq⟩
    · exact Or.inr ⟨ip, List.mem_append_left _ hip, heq⟩
  subnet := by
    rcases h'.subnet with ⟨rfl, rfl⟩ | ⟨ip, hip, heq⟩
    · rw [List.append_nil]
      exact h.subnet
    · exact Or.inr ⟨ip, List.mem_append_right _ hip, heq⟩

theorem scan_spec {netmask : Text} {m : Nat} (hm : inetAtohl netmask = some m) (hlt : m < 2 ^ 32)
    {ips : List Text} {st st' : Scan} (h : ips.foldlM (note netmask m) st = some st') : Scanned m ips st st' := by
  induction ips generalizing st with
  | nil =>
    obtain rfl : st = st' := Option.some.inj h
    exact ⟨by simp, fun e he => Or.inl he, fun e he => Or.inl he, Or.inl ⟨rfl, rfl⟩⟩
  | cons ip ips ih =>
    rw [List.foldlM_cons] at h
    obtain ⟨st₁, hone, h⟩ := Option.bind_eq_some_iff.mp h
    exact (note_spec hm hlt hone).trans (ih h)

end Emulab.Ns
