import Emulab.Frisbee.MasterServer
import Emulab.Lib.MachineInt

/-! # Addresses for servers

  Each call advances an index of the database and makes a multicast address
  of it. The index is added to the last octet, and what is too much for an
  octet is carried over to the one before.
-/

namespace Emulab.Frisbee.MasterServer

open MachineInt

/-! ## Section 1: The address of an index -/

/-- Where the addresses begin, and the ports. -/
structure McBase where
  mc_a : Nat
  mc_b : Nat
  mc_c : Nat
  mc_port_lo : Nat
  mc_port_num : Nat
  le_a : mc_a ≤ 255
  le_b : mc_b ≤ 255
  le_c : mc_c ≤ 255
  /-- `emulab_init` refuses other ports. -/
  ports : mc_port_num = 0 ∨ mc_port_lo + mc_port_num ≤ 65536

inductive ServerAddress
  | address (a : Address) (method : Methods)
  | exhausted
  | unsupported
  | assertion
deriving DecidableEq

/-- An octet, and a value for the octet behind it that may be too large. -/
def carry (octet value : Int) : Int × Int :=
  if 254 < value then (octet + value / 254, value % 254 + 1) else (octet, value)

/-- The last three octets, where the last one is to be `d`. -/
def McBase.spread (base : McBase) (d : Int) : Int × Int × Int :=
  let cd := carry base.mc_c d
  let bc := carry base.mc_b cd.1
  (bc.1, bc.2, cd.2)

/-- What an index makes of the last three octets. -/
def McBase.octets (base : McBase) (idx : Nat) : Int × Int × Int := base.spread (toInt32 (1 + idx))

/-- `(a << 24) | (b << 16) | (c << 8) | d` -/
def addressWord (a : Nat) (o : Int × Int × Int) : Nat :=
  (a <<< 24 ||| toUInt32 o.1 <<< 16 ||| toUInt32 o.2.1 <<< 8 ||| toUInt32 o.2.2) % 2 ^ 32

/-- Addresses that are sent everywhere. -/
def McBase.Floods (base : McBase) (idx : Nat) : Prop :=
  (base.octets idx).2.1 = 0 ∧ ((base.octets idx).1 = 0 ∨ (base.octets idx).1 = 128)

instance (base : McBase) (idx : Nat) : Decidable (base.Floods idx) := inferInstanceAs (Decidable (_ ∧ _))

/-- A range of ports, which on the first call begins at a port that depends on the index. -/
def McBase.portRange (base : McBase) (first : Bool) (idx : Nat) : Nat × Nat :=
  if base.mc_port_num = 0 then (0, 0)
  else ((if first then base.mc_port_lo + idx % base.mc_port_num else base.mc_port_lo) % 65536,
    (base.mc_port_lo + base.mc_port_num - 1) % 65536)

/-- `emulab_get_server_address`, from where the index is read. It is an `int`,
    and asserted to be positive. -/
def emulabGetServerAddress (base : McBase) (methods : Methods) (first : Bool) (addr idx : Nat) : ServerAddress :=
  if 0 < idx ∧ idx < 2 ^ 31 then
    let o := base.octets idx
    if 254 < o.1 then .exhausted
    else
      match serverMethod methods with
      | none => .unsupported
      | some method =>
        -- the index is advanced over the addresses that flood
        if method = MS_METHOD_MULTICAST ∧ base.Floods idx then
          emulabGetServerAddress base methods first addr (idx + 254)
        else if method = MS_METHOD_MULTICAST ∧ o.2.1 = 255 then .assertion
        else
          .address ⟨if method = MS_METHOD_MULTICAST then addressWord base.mc_a o
              else if !first then addr
              else if method = MS_METHOD_UNICAST then 0 else INADDR_BROADCAST,
            (base.portRange first idx).1, (base.portRange first idx).2⟩ method
  else .assertion
termination_by 2 ^ 31 - idx

/-! ## Section 2: Different indices, different octets -/

theorem carry_inj {octet value value' : Int} (h : carry octet value = carry octet value') : value = value' := by
  unfold carry at h
  split at h <;> split at h <;> simp only [Prod.mk.injEq] at h <;> omega

theorem carry_spec (octet : Int) {value : Int} (h : 0 ≤ value) :
    octet ≤ (carry octet value).1 ∧ 0 ≤ (carry octet value).2 ∧ (carry octet value).2 ≤ 254 ∧
      (1 ≤ value → 1 ≤ (carry octet value).2) ∧ (254 < value → octet < (carry octet value).1) := by
  unfold carry
  split
  · dsimp only
    omega
  · dsimp only
    omega

variable {base : McBase} {idx : Nat}

theorem McBase.spread_inj {d d' : Int} (h : base.spread d = base.spread d') : d = d' := by
  simp only [McBase.spread, Prod.mk.injEq] at h
  have hc := carry_inj (Prod.ext h.1 h.2.1)
  exact carry_inj (Prod.ext hc h.2.2)

theorem McBase.spread_nonneg (base : McBase) (d : Int) :
    0 ≤ (base.spread d).1 ∧ 0 ≤ (base.spread d).2.1 ∧ (base.spread d).2.1 ≤ 254 := by
  have hc : 0 ≤ (carry base.mc_c d).1 := by
    unfold carry
    split
    · dsimp only
      omega
    · exact Int.natCast_nonneg _
  obtain ⟨hb, hc₀, hc₁, -⟩ := carry_spec base.mc_b hc
  have hb₀ : (0 : Int) ≤ base.mc_b := Int.natCast_nonneg _
  exact ⟨hb₀.trans hb, hc₀, hc₁⟩

theorem McBase.spread_last (base : McBase) {d : Int} (hd : 1 ≤ d) :
    1 ≤ (base.spread d).2.2 ∧ (base.spread d).2.2 ≤ 254 := by
  obtain ⟨-, -, hle, hpos, -⟩ := carry_spec base.mc_c (Int.le_trans (by decide) hd)
  exact ⟨hpos hd, hle⟩

theorem McBase.octets_nonneg (base : McBase) (idx : Nat) :
    0 ≤ (base.octets idx).1 ∧ 0 ≤ (base.octets idx).2.1 ∧ (base.octets idx).2.1 ≤ 254 := by
  unfold McBase.octets
  exact base.spread_nonneg _

theorem McBase.octets_eq (base : McBase) (hidx : idx + 1 < 2 ^ 31) : base.octets idx = base.spread (1 + idx) := by
  unfold McBase.octets
  rw [toInt32_of_range (by omega) (by omega)]

theorem McBase.Floods.lt (h : base.Floods idx) (hidx : idx + 1 < 2 ^ 31) : idx < 254 := by
  by_contra hge
  obtain ⟨-, -, -, -, hc⟩ := carry_spec base.mc_c (show (0 : Int) ≤ 1 + idx by omega)
  have hpos := hc (by omega)
  obtain ⟨-, -, -, hsnd, -⟩ := carry_spec base.mc_b (show 0 ≤ (carry base.mc_c (1 + idx)).1 by omega)
  have hzero : (base.octets idx).2.1 = 0 := h.1
  rw [base.octets_eq hidx] at hzero
  have hone : 1 ≤ (base.spread (1 + idx)).2.1 := hsnd (by omega)
  omega

theorem toUInt32_of_range {x : Int} (hlo : 0 ≤ x) (hhi : x < 2 ^ 32) : toUInt32 x = x.toNat := by
  unfold toUInt32 toUnsigned
  rw [Int.emod_eq_of_lt hlo hhi]

theorem addressWord_eq {a : Nat} {o : Int × Int × Int} (ha : a ≤ 255) (hb : 0 ≤ o.1 ∧ o.1 ≤ 255)
    (hc : 0 ≤ o.2.1 ∧ o.2.1 ≤ 255) (hd : 0 ≤ o.2.2 ∧ o.2.2 ≤ 255) :
    addressWord a o = ((a * 256 + o.1.toNat) * 256 + o.2.1.toNat) * 256 + o.2.2.toNat := by
  obtain ⟨b, c, d⟩ := o
  dsimp only at *
  have happend : ∀ x y n : Nat, y < 2 ^ n → x <<< n ||| y = x * 2 ^ n + y := fun x y n hy => by
    rw [← Nat.shiftLeft_add_eq_or_of_lt hy, Nat.shiftLeft_eq]
  have hshift : ∀ x n m : Nat, x <<< (n + m) = x <<< n <<< m := fun x n m => Nat.shiftLeft_add x n m
  unfold addressWord
  rw [toUInt32_of_range hb.1 (by omega), toUInt32_of_range hc.1 (by omega), toUInt32_of_range hd.1 (by omega),
    show (24 : Nat) = 8 + 16 from rfl, hshift, ← Nat.shiftLeft_or_distrib, happend a _ 8 (by omega),
    show (16 : Nat) = 8 + 8 from rfl, hshift, ← Nat.shiftLeft_or_distrib, happend _ _ 8 (by omega),
    happend _ _ 8 (by omega), Nat.mod_eq_of_lt (by omega)]
  norm_num

/-! ## Section 3: Sequences of calls -/

structure AddressCall where
  methods : Methods
  first : Bool
  addr : Nat
  idx : Nat

def AddressCall.Multicast (x : AddressCall) : Prop := serverMethod x.methods = some MS_METHOD_MULTICAST

instance (x : AddressCall) : Decidable x.Multicast := inferInstanceAs (Decidable (_ = _))

/-- What the call leaves the index at. -/
def AddressCall.lastIdx (base : McBase) (x : AddressCall) : Nat :=
  if x.Multicast ∧ base.Floods x.idx then x.idx + 254 else x.idx

def AddressCall.answer (base : McBase) (x : AddressCall) : ServerAddress :=
  emulabGetServerAddress base x.methods x.first x.addr x.idx

/-- A multicast address that may be used, with ports of the range that is configured. -/
structure Usable (base : McBase) (a : Address) : Prop where
  last : 1 ≤ a.addr % 256 ∧ a.addr % 256 ≤ 254
  third : a.addr / 256 % 256 ≤ 254
  noFlood : ¬(a.addr / 256 % 256 = 0 ∧ (a.addr / 65536 % 256 = 0 ∨ a.addr / 65536 % 256 = 128))
  ports : base.mc_port_num ≠ 0 → base.mc_port_lo ≤ a.loport ∧ a.loport ≤ a.hiport ∧
    a.hiport < base.mc_port_lo + base.mc_port_num

/-- A usable address is found, or it is said that there is none. -/
def ServerAddress.Served (base : McBase) : ServerAddress → Prop
  | .address a _ => Usable base a
  | .exhausted => True
  | .unsupported | .assertion => False

theorem answer_eq {x : AddressCall} (hx : x.Multicast) (hpos : 0 < x.idx) (hlast : x.lastIdx base < 2 ^ 31) :
    x.answer base = if 254 < (base.octets (x.lastIdx base)).1 then .exhausted
      else .address ⟨addressWord base.mc_a (base.octets (x.lastIdx base)),
        (base.portRange x.first (x.lastIdx base)).1, (base.portRange x.first (x.lastIdx base)).2⟩
        MS_METHOD_MULTICAST := by
  have hstop : ∀ idx, 0 < idx → idx < 2 ^ 31 → ¬base.Floods idx →
      emulabGetServerAddress base x.methods x.first x.addr idx = if 254 < (base.octets idx).1 then .exhausted
        else .address ⟨addressWord base.mc_a (base.octets idx), (base.portRange x.first idx).1,
          (base.portRange x.first idx).2⟩ MS_METHOD_MULTICAST := by
    intro idx hpos hlt hnot
    have hc : (base.octets idx).2.1 ≠ 255 := by
      have := (base.octets_nonneg idx).2.2
      omega
    have hm : serverMethod x.methods = some MS_METHOD_MULTICAST := hx
    have hint : 0 < idx ∧ idx < 2 ^ 31 := ⟨hpos, hlt⟩
    rw [emulabGetServerAddress, if_pos hint]
    simp only [hm, hnot, hc, and_false, if_false, if_true]
  unfold AddressCall.answer AddressCall.lastIdx at *
  by_cases hflood : base.Floods x.idx
  · have hadvance : x.Multicast ∧ base.Floods x.idx := ⟨hx, hflood⟩
    rw [if_pos hadvance] at hlast ⊢
    have hm : serverMethod x.methods = some MS_METHOD_MULTICAST := hx
    have hb : ¬254 < (base.octets x.idx).1 := by
      rcases hflood.2 with hb | hb <;> omega
    have honce : ¬base.Floods (x.idx + 254) := by
      intro hagain
      have := hflood.lt (by omega)
      have := hagain.lt (by omega)
      omega
    have hint : 0 < x.idx ∧ x.idx < 2 ^ 31 := ⟨hpos, by omega⟩
    rw [emulabGetServerAddress, if_pos hint]
    simp only [hm, hb, hflood, and_self, if_false, if_true]
    exact hstop _ (by omega) hlast honce
  · have hstay : ¬(x.Multicast ∧ base.Floods x.idx) := fun h => hflood h.2
    rw [if_neg hstay] at hlast ⊢
    exact hstop _ hpos hlast hflood

theorem addressWord_octets (hidx : idx + 1 < 2 ^ 31) (hb : (base.octets idx).1 ≤ 254) :
    addressWord base.mc_a (base.octets idx) =
      ((base.mc_a * 256 + (base.octets idx).1.toNat) * 256 + (base.octets idx).2.1.toNat) * 256 +
        (base.octets idx).2.2.toNat := by
  obtain ⟨hb₀, hc₀, hc₁⟩ := base.octets_nonneg idx
  obtain ⟨hd₀, hd₁⟩ := base.spread_last (d := 1 + idx) (by omega)
  rw [← base.octets_eq hidx] at hd₀ hd₁
  exact addressWord_eq base.le_a ⟨hb₀, by omega⟩ ⟨hc₀, by omega⟩ ⟨by omega, by omega⟩

theorem addressWord_inj {idx' : Nat} (hidx : idx + 1 < 2 ^ 31) (hidx' : idx' + 1 < 2 ^ 31)
    (hb : (base.octets idx).1 ≤ 254) (hb' : (base.octets idx').1 ≤ 254)
    (h : addressWord base.mc_a (base.octets idx) = addressWord base.mc_a (base.octets idx')) : idx = idx' := by
  obtain ⟨hb₀, hc₀, hc₁⟩ := base.octets_nonneg idx
  obtain ⟨hb₀', hc₀', hc₁'⟩ := base.octets_nonneg idx'
  rw [addressWord_octets hidx hb, addressWord_octets hidx' hb'] at h
  rw [base.octets_eq hidx] at *
  rw [base.octets_eq hidx'] at *
  obtain ⟨hd₀, hd₁⟩ := base.spread_last (d := 1 + idx) (by omega)
  obtain ⟨hd₀', hd₁'⟩ := base.spread_last (d := 1 + idx') (by omega)
  have heq : base.spread (1 + idx) = base.spread (1 + idx') :=
    Prod.ext (by omega) (Prod.ext (by omega) (by omega))
  have := McBase.spread_inj heq
  omega

theorem usable_of_lt (first : Bool) (hidx : idx + 1 < 2 ^ 31) (hb : (base.octets idx).1 ≤ 254)
    (hflood : ¬base.Floods idx) : Usable base ⟨addressWord base.mc_a (base.octets idx),
      (base.portRange first idx).1, (base.portRange first idx).2⟩ := by
  obtain ⟨hb₀, hc₀, hc₁⟩ := base.octets_nonneg idx
  obtain ⟨hd₀, hd₁⟩ := base.spread_last (d := 1 + idx) (by omega)
  rw [← base.octets_eq hidx] at hd₀ hd₁
  have hword := addressWord_octets hidx hb
  refine ⟨?_, ?_, fun h => hflood ?_, fun hnum => ?_⟩
  · dsimp only
    omega
  · dsimp only
    omega
  · dsimp only at h
    unfold McBase.Floods
    omega
  · have hrange := base.ports.resolve_left hnum
    have hmod := Nat.mod_lt idx (Nat.pos_of_ne_zero hnum)
    simp only [McBase.portRange, if_neg hnum]
    split <;> omega

theorem toInt32_max : toInt32 (1 + (2 ^ 31 - 1 : Nat)) = -2 ^ 31 := by decide

/-- Counted up, the largest `int` is negative, and nothing is carried over. -/
theorem octets_max (base : McBase) :
    base.octets (2 ^ 31 - 1) = ((carry base.mc_b base.mc_c).1, (carry base.mc_b base.mc_c).2, -2 ^ 31) := by
  simp only [McBase.octets, McBase.spread, toInt32_max, show carry base.mc_c (-2 ^ 31) = ((base.mc_c : Int), -2 ^ 31) from rfl]

theorem not_usable_max (first : Bool) : ¬Usable base ⟨addressWord base.mc_a (base.octets (2 ^ 31 - 1)),
      (base.portRange first (2 ^ 31 - 1)).1, (base.portRange first (2 ^ 31 - 1)).2⟩ := by
  intro h
  have hzero : ∀ x n : Nat, x * 2 ^ (n + 8) % 2 ^ 8 = 0 := fun x n =>
    Nat.mod_eq_zero_of_dvd ((pow_dvd_pow 2 (Nat.le_add_left 8 n)).mul_left x)
  have hlast : addressWord base.mc_a (base.octets (2 ^ 31 - 1)) % 2 ^ 8 = 0 := by
    rw [addressWord, octets_max, Nat.mod_mod_of_dvd _ (by decide),
      show toUInt32 (-2 ^ 31) = 1 * 2 ^ (23 + 8) from rfl]
    simp only [Nat.or_mod_two_pow, Nat.shiftLeft_eq, hzero, Nat.or_self]
  have := h.last.1
  dsimp only at this
  omega

/-- As long as the index can be counted up as an `int`, multicast calls find usable addresses, and
    different ones, or say that there are none left. -/
theorem serverAddresses_iff (base : McBase) (calls : List AddressCall)
    (hpos : ∀ x ∈ calls, 0 < x.idx ∧ x.lastIdx base < 2 ^ 31)
    (hinc : calls.Pairwise fun x y => x.lastIdx base < y.idx) :
    (∀ x ∈ calls, x.Multicast → (x.answer base).Served base) ∧
      (calls.Pairwise fun x y => x.Multicast → y.Multicast → ∀ a b m n,
        x.answer base = .address a m → y.answer base = .address b n → a.addr ≠ b.addr) ↔
    ∀ x ∈ calls, x.Multicast → x.lastIdx base + 1 < 2 ^ 31 ∨ 254 < (carry base.mc_b base.mc_c).1 := by
  constructor
  · intro hgood x hx hm
    by_contra hnot
    obtain ⟨hend, hleft⟩ := not_or.mp hnot
    obtain ⟨hidx, hlast⟩ := hpos x hx
    have hserved := hgood.1 x hx hm
    have hmax : x.lastIdx base = 2 ^ 31 - 1 := by omega
    rw [answer_eq hm hidx hlast, hmax, octets_max, if_neg hleft, ← octets_max] at hserved
    exact not_usable_max x.first hserved
  · intro hcond
    -- an address that is returned is that of the last index
    have haddress : ∀ x ∈ calls, x.Multicast → ∀ a m, x.answer base = .address a m →
        x.lastIdx base + 1 < 2 ^ 31 ∧ (base.octets (x.lastIdx base)).1 ≤ 254 ∧
          a.addr = addressWord base.mc_a (base.octets (x.lastIdx base)) := by
      intro x hx hm a m ha
      obtain ⟨hidx, hlast⟩ := hpos x hx
      rw [answer_eq hm hidx hlast] at ha
      by_cases hb : 254 < (base.octets (x.lastIdx base)).1
      · simp [hb] at ha
      · rw [if_neg hb] at ha
        obtain ⟨rfl, -⟩ := ServerAddress.address.inj ha
        refine ⟨?_, by omega, rfl⟩
        rcases hcond x hx hm with hlt | hleft
        · exact hlt
        · by_contra hend
          have hmax : x.lastIdx base = 2 ^ 31 - 1 := by omega
          rw [hmax, octets_max] at hb
          exact hb hleft
    refine ⟨fun x hx hm => ?_, hinc.imp_of_mem fun {x y} hx hy hlt hmx hmy a b m n ha hb => ?_⟩
    · obtain ⟨hidx, hlast⟩ := hpos x hx
      have heq := answer_eq hm hidx hlast
      by_cases hb : 254 < (base.octets (x.lastIdx base)).1
      · rw [heq, if_pos hb]
        trivial
      · rw [if_neg hb] at heq
        obtain ⟨hend, hle, -⟩ := haddress x hx hm _ _ heq
        rw [heq]
        refine usable_of_lt x.first hend hle fun hflood => ?_
        -- the index that a call ends with does not flood
        have hbelow := hflood.lt hend
        unfold AddressCall.lastIdx at hflood hbelow
        split at hflood
        · rename_i hadvance
          rw [if_pos hadvance] at hbelow
          omega
        · rename_i hstay
          exact hstay ⟨hm, hflood⟩
    · obtain ⟨hendx, hbx, hax⟩ := haddress x hx hmx a m ha
      obtain ⟨hendy, hby, hay⟩ := haddress y hy hmy b n hb
      intro hsame
      have hle : y.idx ≤ y.lastIdx base := by
        unfold AddressCall.lastIdx
        split <;> omega
      rw [hax, hay] at hsame
      have hidx := addressWord_inj hendx hendy hbx hby hsame
      omega

/-- The second call is made by another server that was restarted. -/
def twoCalls : List AddressCall := [⟨MS_METHOD_MULTICAST, true, 0, 1⟩, ⟨MS_METHOD_MULTICAST, false, 0, 3⟩]

def base_234_5_6 : McBase := ⟨234, 5, 6, 2000, 100, by decide, by decide, by decide, Or.inr (by decide)⟩

theorem serverAddresses_two : (∀ x ∈ twoCalls, x.Multicast → (x.answer base_234_5_6).Served base_234_5_6) ∧
      twoCalls.Pairwise fun x y => x.Multicast → y.Multicast → ∀ a b m n,
        x.answer base_234_5_6 = .address a m → y.answer base_234_5_6 = .address b n → a.addr ≠ b.addr :=
  (serverAddresses_iff base_234_5_6 twoCalls (by decide) (by decide)).mpr fun x hx _ => by
    refine Or.inl ?_
    rcases List.mem_pair.mp hx with rfl | rfl <;> decide

/-- With the largest positive index the last octet is zero. -/
theorem largest_index_not_served :
    ¬((⟨MS_METHOD_MULTICAST, true, 0, 2 ^ 31 - 1⟩ : AddressCall).answer base_234_5_6).Served base_234_5_6 := by
  rw [answer_eq (by decide) (by decide) (by decide), show AddressCall.lastIdx base_234_5_6
    ⟨MS_METHOD_MULTICAST, true, 0, 2 ^ 31 - 1⟩ = 2 ^ 31 - 1 by decide, if_neg (by decide)]
  exact not_usable_max true

end Emulab.Frisbee.MasterServer
