import Mathlib.Data.Vector.Basic
import Mathlib.Tactic

/-! # Fields written to and read from a buffer

  A writer puts fields at the end of a buffer, or only counts their bytes
  where there is no buffer. A reader takes fields from the front of what is
  left. Rules put together what single fields do.
-/

namespace Wire

variable {α β γ : Type} {w : Nat}

/-! ## Reading -/

/-- A reader of fields that may run out of bytes. -/
abbrev Load (β : Type) := StateT (List β) Option

/-- Takes some bytes from the front. -/
def take (n : Nat) : Load β (List.Vector β n) := fun bytes =>
  if h : n ≤ bytes.length then some (⟨bytes.take n, List.length_take_of_le h⟩, bytes.drop n) else none

/-- The reader takes exactly these bytes, whatever follows them, and returns the value. -/
def Undoes (load : Load β α) (bytes : List β) (a : α) : Prop :=
  ∀ rest, load.run (bytes ++ rest) = some (a, rest)

theorem undoes_pure (a : α) : Undoes (pure a : Load β α) [] a := fun _ => rfl

variable {load : Load β α}

theorem Undoes.bind {next : α → Load β γ} {bytes bytes' : List β} {a : α} {c : γ}
    (h : Undoes load bytes a) (h' : Undoes (next a) bytes' c) : Undoes (load >>= next) (bytes ++ bytes') c := by
  intro rest
  rw [StateT.run_bind, List.append_assoc, h]
  exact h' rest

theorem Undoes.map {bytes : List β} {a : α} (f : α → γ) (h : Undoes load bytes a) :
    Undoes (f <$> load) bytes (f a) := by
  intro rest
  rw [StateT.run_map, h]
  rfl

theorem Undoes.bind_pure {bytes : List β} {a : α} (f : α → γ)
    (h : Undoes load bytes a) : Undoes (load >>= fun a => pure (f a)) bytes (f a) := by
  rw [← List.append_nil bytes]
  exact h.bind (undoes_pure (f a))

theorem undoes_take {n : Nat} (bytes : List.Vector β n) : Undoes (take n) bytes.toList bytes := by
  intro rest
  obtain ⟨bytes, rfl⟩ := bytes
  show take bytes.length (bytes ++ rest) = _
  simp [take]

/-- Reads the same kind of value again and again. -/
def times (load : Load β α) : (n : Nat) → Load β (List.Vector α n)
  | 0 => pure List.Vector.nil
  | n + 1 => do
    let a ← load
    List.Vector.cons a <$> times load n

variable {encode : α → List β}

theorem Undoes.times {n : Nat} (as : List.Vector α n) (h : ∀ a ∈ as.toList, Undoes load (encode a) a) :
    Undoes (times load n) (as.toList.flatMap encode) as := by
  obtain ⟨as, rfl⟩ := as
  induction as with
  | nil => exact undoes_pure _
  | cons a as ih =>
    have hrest := ih fun x hx => h x (List.mem_cons_of_mem _ hx)
    exact (h a List.mem_cons_self).bind (hrest.map (List.Vector.cons a))

/-- A field that is there only under a condition. -/
def optional (c : Prop) [Decidable c] (load : Load β α) : Load β (Option α) :=
  if c then some <$> load else pure none

theorem Undoes.optional {c : Prop} [Decidable c] {o : Option α}
    (hc : o.isSome ↔ c) (h : ∀ a, Undoes load (encode a) a) : Undoes (optional c load) (o.elim [] encode) o := by
  unfold Wire.optional
  cases o with
  | none =>
    rw [if_neg fun h => by simpa using hc.mpr h]
    exact undoes_pure none
  | some a =>
    rw [if_pos (hc.mp rfl)]
    exact (h a).map some

/-! ## Writing -/

structure Out (β : Type) (w : Nat) where
  /-- `none` where the bytes are only counted. -/
  buffer : Option (List β)
  count : BitVec w

def Out.append (out : Out β w) (bytes : List β) : Out β w :=
  ⟨out.buffer.map (· ++ bytes), out.count + BitVec.ofNat w bytes.length⟩

theorem Out.append_append (out : Out β w) (bytes bytes' : List β) :
    (out.append bytes).append bytes' = out.append (bytes ++ bytes') := by
  simp [Out.append, Function.comp_def, BitVec.ofNat_add, BitVec.add_assoc]

@[simp] theorem Out.append_nil (out : Out β w) : out.append [] = out := by
  simp [Out.append]

/-- A writer that may fail when it reads its input. -/
abbrev Save (β : Type) (w : Nat) := StateT (Out β w) Option Unit

/-- The writer puts out these bytes, or counts them. -/
def Writes (save : Save β w) (bytes : List β) : Prop :=
  ∀ out, save.run out = some ((), out.append bytes)

theorem writes_pure : Writes (pure () : Save β w) [] := by
  intro out
  rw [Out.append_nil]
  rfl

theorem Writes.bind {save save' : Save β w} {bytes bytes' : List β} (h : Writes save bytes)
    (h' : Writes save' bytes') : Writes (do save; save') (bytes ++ bytes') := by
  intro out
  rw [StateT.run_bind, h, ← Out.append_append]
  exact h' _

/-- Writes only under a condition. -/
def onlyIf (c : Prop) [Decidable c] (save : Save β w) : Save β w := if c then save else pure ()

theorem Writes.onlyIf {c : Prop} [Decidable c] {save : Save β w} {o : Option α}
    (hc : o.isSome ↔ c) (h : ∀ a, o = some a → Writes save (encode a)) :
    Writes (onlyIf c save) (o.elim [] encode) := by
  unfold Wire.onlyIf
  cases o with
  | none =>
    rw [if_neg fun h => by simpa using hc.mpr h]
    exact writes_pure
  | some a =>
    rw [if_pos (hc.mp rfl)]
    exact h a rfl

theorem Writes.forM {save : α → Save β w} (as : List α)
    (h : ∀ a ∈ as, Writes (save a) (encode a)) : Writes (as.forM save) (as.flatMap encode) := by
  induction as with
  | nil => exact writes_pure
  | cons a as ih =>
    rw [List.flatMap_cons]
    exact (h a List.mem_cons_self).bind (ih fun x hx => h x (List.mem_cons_of_mem _ hx))

end Wire
