import EbnAnchor.Core.EpochRuns

/-!
The indices `Epoch_Change` uses.

The symbols the encoder reads and writes stay inside `current_syms`
(`encodeSymbols_touched`). Two places leave their arrays on every epoch change
(`epochChange_outOfBounds`): `Insert_Checksum` reads the byte behind the epoch id, and
`Generate_Epoch_Adverts` loops to `N_SYMBOLS` over an array of `EPOCH_LENGTH` adverts.
-/

namespace EbnAnchor.Core

theorem mem_advertAccesses {n : Nat} {a : Access} :
    a ∈ advertAccesses n ↔ ∃ i < n, a = ⟨.currentAdverts, i⟩ ∨ a = ⟨.currentSyms, i⟩ ∨
      (i < numOverlap ∧ a = ⟨.oldSyms, numSymbols - numOverlap + i⟩) := by
  simp only [advertAccesses, List.mem_flatMap, List.mem_range]
  refine exists_congr fun i => and_congr_right fun _ => ?_
  by_cases hi : i < numOverlap
  · simp [hi]
  · simp [hi]

/-- Exactly six of the indices lie outside: one byte, and five adverts. -/
theorem epochChange_outOfBounds {env : EbnEnv} {fuel : Nat} {s s' : EbnState}
    (h : epochChange env fuel { s with accesses := [] } = some s') (a : Access) :
    (a ∈ s'.accesses ∧ ¬ a.InBounds) ↔ a = ⟨.epochIdBytes, 3⟩ ∨
      (a.array = .currentAdverts ∧ 68 ≤ a.index ∧ a.index < 73) := by
  obtain ⟨touched, htouched, haccesses⟩ := (epochChange_step h).accesses
  have hmem : a ∈ s'.accesses ↔ a ∈ checksumAccesses ∨
      (∃ i ∈ touched, a = ⟨.currentSyms, i⟩) ∨ a ∈ advertAccesses numSymbols := by
    rw [haccesses]
    simp only [List.nil_append, List.mem_append, List.mem_map, eq_comm, or_assoc]
  rw [hmem]
  constructor
  · rintro ⟨hchecksum | ⟨i, hi, rfl⟩ | hadvert, hout⟩
    · simp only [checksumAccesses, sizeofEpochId, List.range_succ, List.range_zero,
        List.map_append, List.map_cons, List.map_nil, List.nil_append, List.mem_append,
        List.mem_singleton] at hchecksum
      rcases hchecksum with (rfl | rfl) | rfl
      · exact absurd (by decide) hout
      · exact absurd (by decide) hout
      · exact Or.inl rfl
    · exact absurd (htouched i hi) hout
    · obtain ⟨i, hi, rfl | rfl | ⟨hover, rfl⟩⟩ := mem_advertAccesses.mp hadvert
      · exact Or.inr ⟨rfl, Nat.le_of_not_lt hout, hi⟩
      · exact absurd hi hout
      · exact absurd (Nat.add_lt_add_left hover (numSymbols - numOverlap)) hout
  · rintro (rfl | ⟨harray, hge, hlt⟩)
    · exact ⟨Or.inl (by decide), by decide⟩
    · obtain ⟨array, index⟩ := a
      cases harray
      exact ⟨Or.inr (Or.inr (mem_advertAccesses.mpr ⟨index, hlt, Or.inl rfl⟩)),
        Nat.not_lt_of_le hge⟩

/-- `Epoch_Change` stays inside its arrays only when it does not get past the key loop. -/
theorem epochChange_inBounds_iff (env : EbnEnv) (s : EbnState) :
    (∀ fuel s', epochChange env fuel { s with accesses := [] } = some s' →
      ∀ a ∈ s'.accesses, a.InBounds) ↔
    ∀ n, (attempt env (s.samples + samplesPerKey * n) (s.keyCalls + n)).rc = 0 := by
  constructor
  · intro hin n
    by_contra hrc
    obtain ⟨fuel, s', hchange⟩ := epochChange_returns (s := { s with accesses := [] }) hrc
    obtain ⟨hmem, hout⟩ := (epochChange_outOfBounds hchange ⟨.epochIdBytes, 3⟩).mpr (Or.inl rfl)
    exact hout (hin fuel s' hchange _ hmem)
  · intro hfails fuel s' hchange
    rw [epochChange_fails (s := { s with accesses := [] }) hfails] at hchange
    cases hchange

/-- The double of the generator, the key of the private number 2. -/
def doubleG : EccPoint where
  x := #v[0x6982A888, 0x29A70FB1, 0x1588A3F6, 0xD3553463, 0x28783F2A, 0xDAFEBF58]
  y := #v[0x5C7E93AB, 0x59331AFA, 0x141B868F, 0x46B27BBC, 0x993DA0FA, 0xDD6BDA0D]

/-- An ADC that yields the private number 2 and then zeros. -/
def keyTwoEnv : EbnEnv where
  adc := fun n => if n = 6 then 1 else 0
  makeKey := fun _ random =>
    if random = #v[2, 0, 0, 0, 0, 0] then ⟨1, doubleG, random⟩
    else ⟨0, doubleG, random⟩
  behindId := fun _ => 0

/-- The first epoch change from start-up, with that private number, leaves its arrays. -/
theorem epochChange_leaves_arrays :
    ∃ fuel s', epochChange keyTwoEnv fuel EbnState.zero = some s' ∧
      (⟨.epochIdBytes, 3⟩ ∈ s'.accesses ∧ ¬ Access.InBounds ⟨.epochIdBytes, 3⟩) ∧
      ⟨.currentAdverts, 68⟩ ∈ s'.accesses ∧ ¬ Access.InBounds ⟨.currentAdverts, 68⟩ := by
  have hkey : (attempt keyTwoEnv (EbnState.zero.samples + samplesPerKey * 0)
      (EbnState.zero.keyCalls + 0)).rc ≠ 0 := by decide
  obtain ⟨fuel, s', hchange⟩ := epochChange_returns hkey
  refine ⟨fuel, s', hchange, ?_, ?_⟩
  · exact (epochChange_outOfBounds (s := EbnState.zero) hchange _).mpr (Or.inl rfl)
  · exact (epochChange_outOfBounds (s := EbnState.zero) hchange _).mpr
      (Or.inr ⟨rfl, by decide, by decide⟩)

end EbnAnchor.Core
