import PacketWire.Proofs.Scan.Growth
import PacketWire.Resumable

namespace PacketWire

/-!
# Steps on longer inputs

What `Scan.Grows` says of scans is said here of the steps of a machine. A step that waits may have
taken bytes and changed the state already; that nothing is lost by it means that the machine goes on
from there as it would have done from the start, with more bytes ahead (`Step.Continues.wait`).
-/

namespace Step

variable {σ ε κ α : Type}

/-- Behind more bytes, the same unit has come with as many more. -/
theorem shift_eq_emit_iff {s : Step σ ε κ} {e : ε} {t : σ} {n k : Nat} :
    s.shift n = .emit e t k ↔ ∃ j, s = .emit e t j ∧ k = n + j := by
  cases s with
  | emit e' t' j => simp [shift, and_assoc, eq_comm]
  | wait t' j => simp [shift]
  | fault f => simp [shift]

/-- Behind more bytes, the step waits as many further on. -/
theorem shift_eq_wait_iff {s : Step σ ε κ} {t : σ} {n k : Nat} :
    s.shift n = .wait t k ↔ ∃ j, s = .wait t j ∧ k = n + j := by
  cases s with
  | emit e' t' j => simp [shift]
  | wait t' j => simp [shift, and_assoc, eq_comm]
  | fault f => simp [shift]

variable {scan : Scan κ α} {waiting : σ} {next : α → Bytes → Step σ ε κ} {input : Bytes}

/-- A step goes on at the bytes behind what was found. -/
theorem andThen_of_done {a : α} {n : Nat} (h : scan input = .done a n) :
    andThen scan waiting next input = (next a (input.drop n)).shift n := by
  rw [andThen, h]

/-- A step waits, as it was, where its scan needs more. -/
theorem andThen_of_more (h : scan input = .more) :
    andThen scan waiting next input = .wait waiting 0 := by
  rw [andThen, h]

/-- A step fails where its scan does. -/
theorem andThen_of_fault {f : Fault κ} (h : scan input = .fault f) :
    andThen scan waiting next input = .fault f := by
  rw [andThen, h]

/-- Reading agrees on an input and on every longer one, where the machine goes on after a wait. -/
structure Continues (m : Machine σ ε κ) (g : Growth (ε × σ)) (read : Bytes → Step σ ε κ)
    (input : Bytes) : Prop where
  /-- No bytes are taken that are not there. -/
  used_le : ∀ {e t n}, read input = .emit e t n → n ≤ input.length
  /-- A complete unit is read again. -/
  complete : ∀ {e t n}, read input = .emit e t n → g (e, t) = none →
    ∀ more, read (input ++ more) = .emit e t n
  /-- A unit that was cut has taken all bytes, and goes on. -/
  cut : ∀ {e t n go}, read input = .emit e t n → g (e, t) = some go →
    n = input.length ∧
      ∀ more, read (input ++ more) = .emit (go more).1.1 (go more).1.2 (n + (go more).2)
  /-- The machine goes on from where it waits. -/
  wait : ∀ {t n}, read input = .wait t n →
    n ≤ input.length ∧ ∀ more, read (input ++ more) = (m.step t (input.drop n ++ more)).shift n
  /-- A fault is met again. -/
  fault : ∀ {f}, read input = .fault f → ∀ more, read (input ++ more) = .fault f

variable {m : Machine σ ε κ} {g : Growth (ε × σ)} {read : Bytes → Step σ ε κ}

/-- A step that waits continues if the machine goes on alike from where it waits. -/
theorem continues_of_wait {t : σ} {n : Nat} (h : read input = .wait t n) (hle : n ≤ input.length)
    (hmore : ∀ more, read (input ++ more) = (m.step t (input.drop n ++ more)).shift n) :
    Continues m g read input where
  used_le hs := by rw [h] at hs; cases hs
  complete hs := by rw [h] at hs; cases hs
  cut hs := by rw [h] at hs; cases hs
  wait hs := by rw [h] at hs; cases hs; exact ⟨hle, hmore⟩
  fault hs := by rw [h] at hs; cases hs

/-- A step that fails alike in every longer input continues. -/
theorem continues_of_fault {f : Fault κ} (h : read input = .fault f)
    (hmore : ∀ more, read (input ++ more) = .fault f) : Continues m g read input where
  used_le hs := by rw [h] at hs; cases hs
  complete hs := by rw [h] at hs; cases hs
  cut hs := by rw [h] at hs; cases hs
  wait hs := by rw [h] at hs; cases hs
  fault hs more := by rw [h] at hs; cases hs; exact hmore more

/-- A step that gives a unit continues if the unit stays, or goes on as it should. -/
theorem continues_of_emit {e : ε} {t : σ} {n : Nat} (h : read input = .emit e t n)
    (hle : n ≤ input.length)
    (hcomplete : g (e, t) = none → ∀ more, read (input ++ more) = .emit e t n)
    (hcut : ∀ {go}, g (e, t) = some go → n = input.length ∧
      ∀ more, read (input ++ more) = .emit (go more).1.1 (go more).1.2 (n + (go more).2)) :
    Continues m g read input where
  used_le hs := by rw [h] at hs; cases hs; exact hle
  complete hs hc := by rw [h] at hs; cases hs; exact hcomplete hc
  cut hs hc := by rw [h] at hs; cases hs; exact hcut hc
  wait hs := by rw [h] at hs; cases hs
  fault hs := by rw [h] at hs; cases hs

/-- Reading that goes on behind the first bytes agrees if what it goes on with does. -/
theorem Continues.behind {behind : Bytes → Step σ ε κ} {n : Nat} (hle : n ≤ input.length)
    (h : ∀ more, read (input ++ more) = (behind (input.drop n ++ more)).shift n)
    (hc : Continues m g behind (input.drop n)) : Continues m g read input := by
  have h0 : read input = (behind (input.drop n)).shift n := by simpa using h []
  cases hb : behind (input.drop n) with
  | emit e t k =>
    have hk := hc.used_le hb
    rw [List.length_drop] at hk
    refine continues_of_emit (by rw [h0, hb]; rfl) (by omega) (fun hg more => ?_) fun hg => ?_
    · rw [h, hc.complete hb hg more]
      rfl
    · obtain ⟨hlen, hgo⟩ := hc.cut hb hg
      rw [List.length_drop] at hlen
      refine ⟨by omega, fun more => ?_⟩
      rw [h, hgo more, shift, Nat.add_assoc]
  | wait t k =>
    obtain ⟨hk, hgo⟩ := hc.wait hb
    rw [List.length_drop] at hk
    refine continues_of_wait (by rw [h0, hb]; rfl) (by omega) fun more => ?_
    rw [h, hgo more, shift_shift, List.drop_drop]
  | fault f =>
    refine continues_of_fault (by rw [h0, hb]; rfl) fun more => ?_
    rw [h, hc.fault hb more]
    rfl

/-- What is read behind a scan agrees, if the scan does and the machine scans again after a
    wait. -/
theorem Continues.andThen (h : Scan.Settles scan input)
    (hw : m.step waiting = Step.andThen scan waiting next)
    (hn : ∀ {a n}, scan input = .done a n → Continues m g (next a) (input.drop n)) :
    Continues m g (Step.andThen scan waiting next) input := by
  cases hs : scan input with
  | more =>
    refine continues_of_wait (andThen_of_more hs) (Nat.zero_le _) fun more => ?_
    rw [hw, List.drop_zero, shift_zero]
  | fault f =>
    exact continues_of_fault (andThen_of_fault hs) fun more => andThen_of_fault (h.fault hs more)
  | done a n =>
    refine .behind (h.used_le hs) (fun more => ?_) (hn hs)
    rw [andThen_of_done (h.done hs more), List.drop_append_of_le_length (h.used_le hs)]

/-- A unit that is found is given. -/
theorem ofScan_of_done {scan : Scan κ (ε × σ)} {e : ε} {t : σ} {n : Nat}
    (h : scan input = .done (e, t) n) : ofScan scan waiting input = .emit e t n := by
  rw [ofScan, andThen_of_done h]
  rfl

/-- A unit that needs more is waited for. -/
theorem ofScan_of_more {scan : Scan κ (ε × σ)} (h : scan input = .more) :
    ofScan scan waiting input = .wait waiting 0 := andThen_of_more h

/-- A fault in a unit is one of the step. -/
theorem ofScan_of_fault {scan : Scan κ (ε × σ)} {f : Fault κ} (h : scan input = .fault f) :
    ofScan scan waiting input = .fault f := andThen_of_fault h

/-- What is given is what was found. -/
theorem ofScan_eq_emit_iff {scan : Scan κ (ε × σ)} {e : ε} {t : σ} {n : Nat} :
    ofScan scan waiting input = .emit e t n ↔ scan input = .done (e, t) n := by
  refine ⟨fun h => ?_, ofScan_of_done⟩
  cases hs : scan input with
  | more => rw [ofScan_of_more hs] at h; cases h
  | fault f => rw [ofScan_of_fault hs] at h; cases h
  | done found k =>
    rw [ofScan_of_done hs] at h
    cases h
    rfl

/-- Nothing has been taken where a unit is waited for. -/
theorem ofScan_eq_wait_iff {scan : Scan κ (ε × σ)} {t : σ} {n : Nat} :
    ofScan scan waiting input = .wait t n ↔ scan input = .more ∧ t = waiting ∧ n = 0 := by
  constructor
  · intro h
    cases hs : scan input with
    | more => rw [ofScan_of_more hs] at h; cases h; exact ⟨rfl, rfl, rfl⟩
    | fault f => rw [ofScan_of_fault hs] at h; cases h
    | done found k => rw [ofScan_of_done hs] at h; cases h
  · rintro ⟨hs, rfl, rfl⟩
    exact ofScan_of_more hs

/-- A step for a single unit continues if its scan grows. -/
theorem Continues.ofScan {scan : Scan κ (ε × σ)} (h : Scan.Grows g scan input)
    (hw : m.step waiting = Step.ofScan scan waiting) :
    Continues m g (Step.ofScan scan waiting) input := by
  cases hs : scan input with
  | more =>
    refine continues_of_wait (andThen_of_more hs) (Nat.zero_le _) fun more => ?_
    rw [hw, List.drop_zero, shift_zero]
  | fault f =>
    exact continues_of_fault (andThen_of_fault hs) fun more => andThen_of_fault (h.fault hs more)
  | done found n =>
    obtain ⟨e, t⟩ := found
    refine continues_of_emit (ofScan_of_done hs) (h.used_le hs) (fun hc more => ?_) fun hc => ?_
    · exact ofScan_of_done (h.complete hs hc more)
    · obtain ⟨hn, hgo⟩ := h.cut hs hc
      exact ⟨hn, fun more => ofScan_of_done (hgo more)⟩

/-- A unit of the kind that may come is given. -/
theorem ofScan?_of_some {scan : Scan κ (Option (ε × σ))} {next : Bytes → Step σ ε κ} {e : ε}
    {t : σ} {n : Nat} (h : scan input = .done (some (e, t)) n) :
    ofScan? scan waiting next input = .emit e t n := by
  rw [ofScan?, andThen_of_done h]
  rfl

/-- Where no unit of the kind has come, the step goes on to what may come in its place. -/
theorem ofScan?_of_none {scan : Scan κ (Option (ε × σ))} {next : Bytes → Step σ ε κ} {n : Nat}
    (h : scan input = .done none n) :
    ofScan? scan waiting next input = (next (input.drop n)).shift n := by
  rw [ofScan?, andThen_of_done h]

/-- A step for a unit that may come continues if its scan grows, and so does what comes in its
    place. -/
theorem Continues.ofScan? {scan : Scan κ (Option (ε × σ))} {next : Bytes → Step σ ε κ}
    (h : Scan.Grows g.option scan input) (hw : m.step waiting = Step.ofScan? scan waiting next)
    (hn : ∀ {n}, scan input = .done none n → Continues m g next (input.drop n)) :
    Continues m g (Step.ofScan? scan waiting next) input := by
  cases hs : scan input with
  | more =>
    refine continues_of_wait (andThen_of_more hs) (Nat.zero_le _) fun more => ?_
    rw [hw, List.drop_zero, shift_zero]
  | fault f =>
    exact continues_of_fault (andThen_of_fault hs) fun more => andThen_of_fault (h.fault hs more)
  | done found n =>
    cases found with
    | none =>
      refine .behind (h.used_le hs) (fun more => ?_) (hn hs)
      rw [ofScan?_of_none (h.complete hs rfl more), List.drop_append_of_le_length (h.used_le hs)]
    | some unit =>
      obtain ⟨e, t⟩ := unit
      refine continues_of_emit (ofScan?_of_some hs) (h.used_le hs) (fun hc more => ?_) fun hc => ?_
      · exact ofScan?_of_some (h.complete hs (by rw [Growth.option, hc]; rfl) more)
      · obtain ⟨hn, hgo⟩ := h.cut hs (by rw [Growth.option, hc]; rfl)
        exact ⟨hn, fun more => ofScan?_of_some (hgo more)⟩

end Step

end PacketWire
