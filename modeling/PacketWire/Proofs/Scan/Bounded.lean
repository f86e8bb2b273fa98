import PacketWire.Proofs.Resumable.Runs

namespace PacketWire

/-!
# Scans take what is there

No scan takes more bytes than there are (`Scan.IsBounded`). It is enough to know it of the
elementary scans, as scans in a row add up (`Scan.IsBounded.bind`).
-/

namespace Scan

variable {κ α β : Type} {scan : Scan κ α} {next : α → Scan κ β}

/-- A scan takes no more bytes than there are. -/
structure IsBounded (scan : Scan κ α) : Prop where
  /-- With any value. -/
  used_le : ∀ {input : Bytes} {a : α} {n : Nat}, scan input = .done a n → n ≤ input.length

/-- Scans in a row take no more than there is, as each goes on with what is left. -/
theorem IsBounded.bind (h : IsBounded scan) (hn : ∀ a, IsBounded (next a)) :
    IsBounded (scan >>= next) := by
  refine ⟨fun hs => ?_⟩
  obtain ⟨a, j, k, hj, hk, rfl⟩ := bind_eq_done_iff.1 hs
  have hle := h.used_le hj
  have hle' := (hn a).used_le hk
  rw [List.length_drop] at hle'
  omega

/-- A value that is given without looking takes nothing. -/
theorem isBounded_pure (a : α) : IsBounded (pure a : Scan κ α) := by
  refine ⟨fun hs => ?_⟩
  cases hs
  exact Nat.zero_le _

/-- A fault takes nothing. -/
theorem isBounded_fault (cause : κ) : IsBounded (fault cause : Scan κ α) := ⟨nofun⟩

/-- A scan that needs more takes nothing. -/
theorem isBounded_more : IsBounded (more : Scan κ α) := ⟨nofun⟩

/-- Looking at the next byte, if there is one, takes nothing. -/
theorem isBounded_peek? : IsBounded (peek? : Scan κ (Option UInt8)) := by
  refine ⟨fun hs => ?_⟩
  cases hs
  exact Nat.zero_le _

/-- Looking at the next byte takes nothing. -/
theorem isBounded_peek : IsBounded (peek : Scan κ UInt8) := by
  refine ⟨fun hs => ?_⟩
  obtain ⟨rfl, -⟩ := peek_eq_done_iff.1 hs
  exact Nat.zero_le _

/-- No more bytes are skipped than there are. -/
theorem isBounded_skip (n : Nat) : IsBounded (skip n : Scan κ Unit) := by
  refine ⟨fun hs => ?_⟩
  cases hs
  exact Nat.min_le_right ..

/-- A byte is taken only where there is one. -/
theorem isBounded_byte (b : UInt8) (cause : κ) : IsBounded (byte b cause) := by
  refine .bind isBounded_peek fun _ => ?_
  split
  · exact isBounded_skip 1
  · exact isBounded_fault cause

/-- A word is part of the input. -/
theorem isBounded_wordOrEnd (class? : UInt8 → Bool) :
    IsBounded (wordOrEnd class? : Scan κ Bytes) := by
  refine ⟨fun hs => ?_⟩
  obtain ⟨rfl, -, rest, -, rfl⟩ := wordOrEnd_eq_done_iff.1 hs
  simp

/-- The digits of a number are part of the input. -/
theorem isBounded_numberOrEnd : IsBounded (numberOrEnd : Scan κ Decimal.Reading) :=
  .bind (isBounded_wordOrEnd _) fun _ => isBounded_pure _

/-- What stands in front of a stop is part of the input. -/
theorem isBounded_upToOrEnd (stop : Option UInt8) :
    IsBounded (upToOrEnd stop : Scan κ (Bytes × Bool)) :=
  .bind (isBounded_wordOrEnd _) fun _ => .bind isBounded_peek? fun _ => isBounded_pure _

/-- Of a longer value only what is there is taken. -/
theorem isBounded_take (n : Nat) : IsBounded (take n : Scan κ Portion) := by
  refine ⟨fun hs => ?_⟩
  rw [take] at hs
  split at hs
  · next hle =>
    cases hs
    exact hle
  · cases hs
    exact Nat.le_refl _

/-- Of the rest of a longer value only what is there is taken. -/
theorem isBounded_takeOn (n : Nat) : IsBounded (takeOn n : Scan κ Portion) :=
  .bind isBounded_peek fun _ => isBounded_take n

end Scan

namespace Step

variable {σ ε κ α : Type} {s : Step σ ε κ} {scan : Scan κ α} {waiting : σ}
  {next : α → Bytes → Step σ ε κ} {input : Bytes}

/-- How many bytes a step takes. -/
def used : Step σ ε κ → Nat
  | emit _ _ n => n
  | wait _ n => n
  | fault _ => 0

/-- What is taken first and what a step takes then are no more than there is. -/
theorem used_shift_le {n : Nat} (hn : n ≤ input.length) (h : s.used ≤ (input.drop n).length) :
    (s.shift n).used ≤ input.length := by
  rw [List.length_drop] at h
  cases s with
  | emit e t k => simp only [shift, used] at h ⊢; omega
  | wait t k => simp only [shift, used] at h ⊢; omega
  | fault f => exact Nat.zero_le _

/-- A step behind a bounded scan takes no more than there is. -/
theorem used_andThen_le (h : scan.IsBounded) (hn : ∀ a rest, (next a rest).used ≤ rest.length) :
    (andThen scan waiting next input).used ≤ input.length := by
  unfold andThen
  cases hs : scan input with
  | more => exact Nat.zero_le _
  | fault f => exact Nat.zero_le _
  | done a n => exact used_shift_le (h.used_le hs) (hn a _)

/-- A step for a single unit takes what its scan does. -/
theorem used_ofScan_le {scan : Scan κ (ε × σ)} (h : scan.IsBounded) :
    (ofScan scan waiting input).used ≤ input.length :=
  used_andThen_le h fun _ _ => Nat.zero_le _

end Step

/-- It is enough to bound what each step takes. -/
theorem Machine.isBounded_of_used_le {σ ε κ : Type} {m : Machine σ ε κ}
    (h : ∀ s input, (m.step s input).used ≤ input.length) : m.IsBounded where
  emit {s _ input _ _} hs := by
    have hle := h s input
    rwa [hs] at hle
  wait {s _ input _} hs := by
    have hle := h s input
    rwa [hs] at hle

end PacketWire
