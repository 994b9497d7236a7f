import Mathlib.Data.List.Pairwise
import Mathlib.Tactic.Common

/-! # Tenures

  A register of who has held what, and when: a tenure begins when a resource is
  acquired, and ends, once, when it is released. A resource is acquired only while
  nobody holds it, so the tenures of one resource follow one another.
-/

namespace Tenures

open List Option

/-- The time that a holder had a resource. -/
structure Tenure (ρ η : Type*) where
  resource : ρ
  holder : η
  since : Nat
  till : Option Nat
deriving DecidableEq

variable {ρ η : Type*}

/-- The holder has the resource at a time. -/
def Tenure.Has (t : Tenure ρ η) (x : Nat) : Prop := t.since ≤ x ∧ ∀ e, t.till = some e → x < e

def acquire (r : ρ) (h : η) (now : Nat) (ts : List (Tenure ρ η)) : List (Tenure ρ η) :=
  ts ++ [⟨r, h, now, none⟩]

/-- What a tenure is when the holders and resources of `p` are released: only one that
    has not ended does so. -/
def Tenure.close (p : ρ → η → Bool) (now : Nat) (t : Tenure ρ η) : Tenure ρ η :=
  if t.till = none ∧ p t.resource t.holder = true then { t with till := some now } else t

def release (p : ρ → η → Bool) (now : Nat) (ts : List (Tenure ρ η)) : List (Tenure ρ η) :=
  ts.map (Tenure.close p now)

/-- The register at a time: tenures end after they begin, and one of the same resource
    begins after the ends of all before it. -/
structure Ledger (now : Nat) (ts : List (Tenure ρ η)) : Prop where
  timed : ∀ t ∈ ts, t.since ≤ now ∧ ∀ e, t.till = some e → t.since ≤ e ∧ e ≤ now
  /-- An earlier tenure of the resource has ended. -/
  exclusive : ts.Pairwise fun t t' => t.resource = t'.resource → ∃ e, t.till = some e ∧ e ≤ t'.since

@[simp] theorem resource_close (p : ρ → η → Bool) (now : Nat) (t : Tenure ρ η) :
    (t.close p now).resource = t.resource := by
  unfold Tenure.close
  split <;> rfl

@[simp] theorem holder_close (p : ρ → η → Bool) (now : Nat) (t : Tenure ρ η) :
    (t.close p now).holder = t.holder := by
  unfold Tenure.close
  split <;> rfl

@[simp] theorem since_close (p : ρ → η → Bool) (now : Nat) (t : Tenure ρ η) : (t.close p now).since = t.since := by
  unfold Tenure.close
  split <;> rfl

theorem till_close_of_some {t : Tenure ρ η} {e : Nat} (h : t.till = some e) (p : ρ → η → Bool) (now : Nat) :
    (t.close p now).till = some e := by
  unfold Tenure.close
  rw [if_neg fun hopen => by rw [h] at hopen; exact absurd hopen.1 (some_ne_none e)]
  exact h

/-- A tenure that does not end was open, and it was not released. -/
theorem till_close_eq_none {p : ρ → η → Bool} {now : Nat} {t : Tenure ρ η} :
    (t.close p now).till = none ↔ t.till = none ∧ p t.resource t.holder = false := by
  unfold Tenure.close
  split
  · rename_i hclosed
    simp [hclosed.2]
  · rename_i hkept
    rw [not_and, Bool.not_eq_true] at hkept
    exact ⟨fun h => ⟨h, hkept h⟩, fun h => h.1⟩

theorem till_close_eq_some {p : ρ → η → Bool} {now e : Nat} {t : Tenure ρ η}
    (h : (t.close p now).till = some e) : e = now ∨ t.till = some e := by
  unfold Tenure.close at h
  split at h
  · exact Or.inl (some.inj h).symm
  · exact Or.inr h

theorem Ledger.nil (now : Nat) : Ledger now ([] : List (Tenure ρ η)) :=
  ⟨fun _ h => absurd h not_mem_nil, List.Pairwise.nil⟩

variable {ts : List (Tenure ρ η)}

theorem Ledger.mono {now now' : Nat} (h : Ledger now ts) (hle : now ≤ now') : Ledger now' ts := by
  refine ⟨fun t ht => ?_, h.exclusive⟩
  obtain ⟨hsince, htill⟩ := h.timed t ht
  exact ⟨Nat.le_trans hsince hle, fun e he => ⟨(htill e he).1, Nat.le_trans (htill e he).2 hle⟩⟩

theorem Ledger.acquire {now : Nat} (h : Ledger now ts) {r : ρ}
    (hfree : ∀ t ∈ ts, t.resource = r → t.till ≠ none) (holder : η) : Ledger now (acquire r holder now ts) := by
  constructor
  · intro t ht
    rcases mem_append.mp ht with ht | ht
    · exact h.timed t ht
    · rw [mem_singleton.mp ht]
      exact ⟨Nat.le_refl now, fun e he => by cases he⟩
  · refine pairwise_append.mpr ⟨h.exclusive, pairwise_singleton _ _, fun t ht t' ht' hr => ?_⟩
    rw [mem_singleton.mp ht'] at hr ⊢
    obtain ⟨e, he⟩ := ne_none_iff_exists'.mp (hfree t ht hr)
    exact ⟨e, he, ((h.timed t ht).2 e he).2⟩

theorem Ledger.release {now : Nat} (h : Ledger now ts) (p : ρ → η → Bool) : Ledger now (release p now ts) := by
  constructor
  · intro t ht
    obtain ⟨t₀, ht₀, rfl⟩ := mem_map.mp ht
    obtain ⟨hsince, htill⟩ := h.timed t₀ ht₀
    rw [since_close]
    refine ⟨hsince, fun e he => ?_⟩
    rcases till_close_eq_some he with rfl | he₀
    · exact ⟨hsince, Nat.le_refl _⟩
    · exact htill e he₀
  · refine pairwise_map.mpr (h.exclusive.imp fun {t t'} hex hr => ?_)
    rw [resource_close, resource_close] at hr
    obtain ⟨e, he, hle⟩ := hex hr
    exact ⟨e, till_close_of_some he p now, by rwa [since_close]⟩

theorem Ledger.one_open [DecidableEq ρ] {now : Nat} (h : Ledger now ts) (r : ρ) :
    (ts.filter fun t => t.resource = r ∧ t.till = none).length ≤ 1 := by
  have hpairs := h.exclusive.filter fun t => decide (t.resource = r ∧ t.till = none)
  have hall : ∀ t ∈ ts.filter fun t => t.resource = r ∧ t.till = none, t.resource = r ∧ t.till = none :=
    fun t ht => of_decide_eq_true (mem_filter.mp ht).2
  generalize ts.filter (fun t => decide (t.resource = r ∧ t.till = none)) = opened at hpairs hall ⊢
  match opened with
  | [] => exact Nat.zero_le 1
  | [_] => exact Nat.le_refl 1
  | t :: t' :: rest =>
    have ht := hall t mem_cons_self
    have ht' := hall t' (mem_cons_of_mem _ mem_cons_self)
    obtain ⟨e, he, -⟩ := (pairwise_cons.mp hpairs).1 t' mem_cons_self (ht.1.trans ht'.1.symm)
    rw [ht.2] at he
    cases he

theorem Ledger.disjoint {now : Nat} (h : Ledger now ts) :
    ts.Pairwise fun t t' => t.resource = t'.resource → ∀ x, ¬(t.Has x ∧ t'.Has x) := by
  refine h.exclusive.imp fun {t t'} hex hr x hx => ?_
  obtain ⟨e, he, hle⟩ := hex hr
  have hlt := hx.1.2 e he
  have hge := hx.2.1
  omega

end Tenures
