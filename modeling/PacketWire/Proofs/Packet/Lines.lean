import PacketWire.Packet.Parser
import PacketWire.Proofs.Bytes

namespace PacketWire.Packet

/-!
# Lines in front of the closing line

Content without a length ends at the first line that is just `|`. What is in front of it is a
sequence of lines none of which is just `|` (`Unclosed`), and `scanLines` finds exactly such
sequences: `scanLines_of_unclosed` and `unclosed_of_scanLines`.
-/

/-- Lines none of which is just `|`. -/
inductive Unclosed : Bytes → Prop where
  /-- No lines. -/
  | nil : Unclosed []
  /-- One more line in front. -/
  | line {text rest : Bytes} :
      Byte.lineFeed ∉ text → text ≠ [Byte.pipe] → Unclosed rest →
        Unclosed (text ++ Byte.lineFeed :: rest)

variable {text rest input lines : Bytes}

theorem unclosed_line_iff (h : Byte.lineFeed ∉ text) :
    Unclosed (text ++ Byte.lineFeed :: rest) ↔ text ≠ [Byte.pipe] ∧ Unclosed rest := by
  refine ⟨fun hu => ?_, fun hu => .line h hu.1 hu.2⟩
  -- the first line of the sequence is the given one, for both end at the first line feed
  generalize hw : text ++ Byte.lineFeed :: rest = whole at hu
  cases hu with
  | nil => simp at hw
  | line hl hp hu =>
    obtain ⟨rfl, rfl⟩ := Bytes.append_cons_inj_of_notMem h hl hw
    exact ⟨hp, hu⟩

theorem unclosed_append_iff (h : Unclosed lines) : Unclosed (lines ++ rest) ↔ Unclosed rest := by
  induction h with
  | nil => rfl
  | line hl hp _ ih =>
    rw [List.append_assoc, List.cons_append, unclosed_line_iff hl, ih]
    exact and_iff_right hp

/-- Bytes that a line feed is put behind are lines, and these are told by `split`. -/
theorem unclosed_append_lineFeed_iff :
    Unclosed (text ++ Byte.lineFeed :: rest) ↔
      [Byte.pipe] ∉ Bytes.split Byte.lineFeed text ∧ Unclosed rest := by
  induction hn : text.length using Nat.strongRecOn generalizing text with
  | ind n ih =>
    by_cases h : Byte.lineFeed ∈ text
    · obtain ⟨line, tail, rfl, hl⟩ := List.eq_append_cons_of_mem h
      have htail := @ih tail.length (by simp at hn; omega) tail rfl
      rw [List.append_assoc, List.cons_append, unclosed_line_iff hl, htail,
        Bytes.split_append_cons hl, List.mem_cons, not_or, and_assoc, ne_comm]
    · rw [Bytes.split_of_notMem h, List.mem_singleton, unclosed_line_iff h, ne_comm]

theorem unclosed_lineFeed_iff :
    Unclosed (text ++ [Byte.lineFeed]) ↔ [Byte.pipe] ∉ Bytes.split Byte.lineFeed text :=
  unclosed_append_lineFeed_iff.trans (and_iff_left .nil)

/-- The lines in front of the closing line are empty, or end with a line feed. -/
theorem Unclosed.eq_append {lines : Bytes} (h : Unclosed lines) (hne : lines ≠ []) :
    ∃ data, lines = data ++ [Byte.lineFeed] := by
  induction h with
  | nil => exact absurd rfl hne
  | @line first rest _ _ _ ih =>
    by_cases hrest : rest = []
    · subst hrest
      exact ⟨first, rfl⟩
    · obtain ⟨data, rfl⟩ := ih hrest
      exact ⟨first ++ Byte.lineFeed :: data, by simp⟩

/-- A line that holds more than `|` is not taken for the closing line. -/
theorem closingLine_not_in_front (hl : Byte.lineFeed ∉ text) (hp : text ≠ [Byte.pipe]) :
    ¬ closingLine.isPrefixOf (text ++ Byte.lineFeed :: rest) = true := by
  rw [List.isPrefixOf_iff_prefix]
  rintro ⟨behind, h⟩
  obtain ⟨rfl, -⟩ : [Byte.pipe] = text ∧ behind = rest :=
    Bytes.append_cons_inj_of_notMem (by decide) hl (by simpa [closingLine] using h)
  exact hp rfl

/-- The search goes on behind a line that is not just `|`. -/
theorem scanLines_line (hl : Byte.lineFeed ∉ text) (hp : text ≠ [Byte.pipe]) :
    scanLines (text ++ Byte.lineFeed :: rest) =
      match scanLines rest with
      | .done lines n => .done (text ++ Byte.lineFeed :: lines) (text.length + 1 + n)
      | .more => .more
      | .fault f => .fault f := by
  rw [scanLines, if_neg (closingLine_not_in_front hl hp), Bytes.before_append_of_notMem hl,
    Bytes.before, scanLines]
  by_cases hc : closingLine.isPrefixOf rest = true
  · rw [if_pos (by simpa using hc), if_pos hc]
    simp
  · rw [if_neg (by simpa using hc), if_neg hc]
    cases Bytes.before (Byte.lineFeed :: closingLine) rest with
    | none => rfl
    | some front => simp; omega

/-- Lines are found in front of the first one that is just `|`. -/
theorem scanLines_of_unclosed (h : Unclosed lines) :
    scanLines (lines ++ closingLine ++ rest) = .done lines lines.length := by
  induction h with
  | nil => rfl
  | line hl hp _ ih =>
    rw [List.append_assoc, List.append_assoc, List.cons_append, scanLines_line hl hp,
      ← List.append_assoc, ih]
    simp; omega

/-- Only lines are found, and the first line that is just `|` is behind them. -/
theorem unclosed_of_scanLines {n : Nat} (h : scanLines input = .done lines n) :
    n = lines.length ∧ Unclosed lines ∧ ∃ rest, input = lines ++ closingLine ++ rest := by
  induction hn : input.length using Nat.strongRecOn generalizing input lines n with
  | ind k ih =>
    by_cases hc : closingLine.isPrefixOf input = true
    · rw [scanLines, if_pos hc] at h
      cases h
      obtain ⟨rest, rfl⟩ := List.isPrefixOf_iff_prefix.1 hc
      exact ⟨rfl, .nil, rest, rfl⟩
    -- something was found, so there is a first line, and the search goes on behind it
    · have hm : Byte.lineFeed ∈ input := by
        rw [scanLines, if_neg hc] at h
        split at h
        · next hb => obtain ⟨rest, rfl⟩ := Bytes.eq_append_of_before hb; simp
        · cases h
      obtain ⟨text, rest, rfl, hl⟩ := List.eq_append_cons_of_mem hm
      have hp : text ≠ [Byte.pipe] := by rintro rfl; exact hc rfl
      rw [scanLines_line hl hp] at h
      split at h
      · next lines' n' hs =>
        cases h
        obtain ⟨rfl, hu, behind, hrest⟩ := ih rest.length (by simp at hn; omega) hs rfl
        exact ⟨by simp; omega, .line hl hp hu, behind, by simp [hrest]⟩
      · cases h
      · cases h

/-- Of lines of which one is just `|` only those in front of the first such line are found. -/
theorem scanLines_of_closed (h : ¬ Unclosed (text ++ [Byte.lineFeed])) :
    ∃ lines, scanLines (text ++ Byte.lineFeed :: rest) = .done lines lines.length ∧
      Unclosed lines ∧ lines ++ closingLine <+: text ++ [Byte.lineFeed] := by
  induction hn : text.length using Nat.strongRecOn generalizing text with
  | ind n ih =>
    by_cases hm : Byte.lineFeed ∈ text
    · obtain ⟨line, tail, rfl, hl⟩ := List.eq_append_cons_of_mem hm
      rw [List.append_assoc, List.cons_append, unclosed_line_iff hl, not_and'] at h
      -- the first line is the closing line, or the closing line is in the tail
      by_cases hp : line = [Byte.pipe]
      · subst hp
        exact ⟨[], rfl, .nil, tail ++ [Byte.lineFeed], by simp [closingLine]⟩
      · have ht : ¬ Unclosed (tail ++ [Byte.lineFeed]) := fun hu => h hu hp
        obtain ⟨lines, hs, hu, behind, hb⟩ := ih tail.length (by simp at hn; omega) ht rfl
        refine ⟨line ++ Byte.lineFeed :: lines, ?_, .line hl hp hu, behind, by simp [← hb]⟩
        rw [List.append_assoc, List.cons_append, scanLines_line hl hp, hs]
        simp; omega
    · rw [unclosed_line_iff hm, not_and'] at h
      -- there is one line only, and it is not allowed in front of the closing line
      obtain rfl : text = [Byte.pipe] := Decidable.of_not_not (h .nil)
      exact ⟨[], rfl, .nil, [], rfl⟩

/-- The closing line is in bytes that a line feed is put behind, if a line of them is just `|`. -/
theorem closingLine_infix_of_mem (h : [Byte.pipe] ∈ Bytes.split Byte.lineFeed text) :
    closingLine <:+: text ++ [Byte.lineFeed] := by
  obtain ⟨lines, -, -, behind, hb⟩ :=
    @scanLines_of_closed text [] fun hu => unclosed_lineFeed_iff.1 hu h
  exact ⟨lines, behind, hb⟩

end PacketWire.Packet
