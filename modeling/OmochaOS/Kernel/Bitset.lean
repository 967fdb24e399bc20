import OmochaOS.Kernel.ProcTable

/-!
# Bit arrays (`lib/bitset.h`)

`find_first_unset_bit` answers with the position inside a word and leaves the number of the word out, so it
is right as long as the first word has an unset bit, or none has one.
-/

namespace OmochaOS

variable {bits rest : List (BitVec 32)} {word c : BitVec 32} {i j : ℕ}

/-- The index is the least one of an unset bit, and `set_bit` changes that bit only. -/
structure LeastUnset (bits : List (BitVec 32)) (i : ℕ) : Prop where
  lt : i < 32 * bits.length
  unset : checkBit bits i = false
  below : ∀ j < i, checkBit bits j = true
  flips : ∀ j, checkBit (setBit bits i) j = (decide (j = i) || checkBit bits j)

/-- `find_first_unset_bit` finds the least unset bit, or says that there is none. -/
def FindsLeast (bits : List (BitVec 32)) : Prop :=
  (∃ i, LeastUnset bits i ∧ findFirstUnsetBit bits = i) ∨
    ((∀ i < 32 * bits.length, checkBit bits i = true) ∧ findFirstUnsetBit bits = 0xFFFFFFFF)

theorem getLsbD_full (hi : i < 32) : (0xFFFFFFFF#32).getLsbD i = true := by
  have hones : 0xFFFFFFFF#32 = BitVec.allOnes 32 := by decide
  rw [hones, BitVec.getLsbD_allOnes]
  exact decide_eq_true hi

/-- No bit below is set. -/
theorem bsf_below (hj : j < bsf c) : c.getLsbD j = false := by
  by_cases hc : c = 0
  · rw [hc]
    exact BitVec.getLsbD_zero
  · have hlt := (bsf_spec hc).1
    unfold bsf at hj hlt
    cases hfind : (List.range 32).find? fun i => c.getLsbD i with
    | none =>
      rw [hfind] at hj
      exact absurd hj (Nat.not_lt_zero j)
    | some i =>
      rw [hfind] at hj hlt
      obtain ⟨-, l₁, l₂, hrange, hbefore⟩ := List.find?_eq_some_iff_append.mp hfind
      have hmem : j ∈ l₁ := by
        have hj32 : j ∈ List.range 32 := List.mem_range.mpr (Nat.lt_trans hj hlt)
        rw [hrange] at hj32
        rcases List.mem_append.mp hj32 with hmem | hmem
        · exact hmem
        · -- what stands behind is larger
          have hsorted : (List.range 32).Pairwise (· < ·) := List.pairwise_lt_range
          rw [hrange] at hsorted
          have hle : ∀ k ∈ l₂, i < k := (List.pairwise_cons.mp (List.pairwise_append.mp hsorted).2.1).1
          rcases List.mem_cons.mp hmem with rfl | hmem
          · exact absurd hj (Nat.lt_irrefl _)
          · exact absurd hj (Nat.not_lt.mpr (Nat.le_of_lt (hle j hmem)))
      simpa using hbefore j hmem

theorem checkBit_cons_of_lt (hi : i < 32) : checkBit (word :: rest) i = word.getLsbD i := by
  rw [checkBit, Nat.div_eq_of_lt hi, Nat.mod_eq_of_lt hi]
  rfl

/-- In an array of full words every bit is set. -/
theorem checkBit_of_full (hfull : ∀ word ∈ bits, word = 0xFFFFFFFF#32) (hi : i < 32 * bits.length) :
    checkBit bits i = true := by
  have hlt : i / 32 < bits.length := by omega
  rw [checkBit, List.getElem?_eq_getElem hlt, Option.getD_some, hfull _ (List.getElem_mem hlt)]
  exact getLsbD_full (Nat.mod_lt _ (by decide))

theorem findFirstUnsetBit_full (hfull : ∀ word ∈ bits, word = 0xFFFFFFFF#32) :
    findFirstUnsetBit bits = 0xFFFFFFFF := by
  induction bits with
  | nil => rfl
  | cons word rest ih =>
    rw [findFirstUnsetBit, if_pos (hfull word List.mem_cons_self)]
    exact ih fun w hw => hfull w (List.mem_cons_of_mem word hw)

/-- The first word has an unset bit. -/
theorem leastUnset_first (hword : word ≠ 0xFFFFFFFF#32) : LeastUnset (word :: rest) (bsf (~~~word)) := by
  have hnot : ~~~word ≠ 0 := by
    intro h0
    apply hword
    have hword0 := congrArg (fun v => ~~~v) h0
    simpa using hword0
  obtain ⟨hlt, hset⟩ := bsf_spec hnot
  have hbit : ∀ k < 32, (~~~word).getLsbD k = !word.getLsbD k := by
    intro k hk
    rw [BitVec.getLsbD_not, decide_eq_true hk, Bool.true_and]
  have hlength : (word :: rest).length = rest.length + 1 := List.length_cons
  refine ⟨by omega, ?_, fun j hj => ?_, fun j => checkBit_setBit_of_lt (by omega)⟩
  · rw [checkBit_cons_of_lt hlt]
    rw [hbit _ hlt] at hset
    simpa using hset
  · have hbelow := bsf_below hj
    rw [hbit j (Nat.lt_trans hj hlt)] at hbelow
    rw [checkBit_cons_of_lt (Nat.lt_trans hj hlt)]
    simpa using hbelow

/-- **When `find_first_unset_bit` is right**: the first word is not full, or all are. -/
theorem findFirstUnsetBit_least_iff (bits : List (BitVec 32)) :
    FindsLeast bits ↔ bits.head? ≠ some 0xFFFFFFFF#32 ∨ ∀ word ∈ bits, word = 0xFFFFFFFF#32 := by
  have hall : (∀ word ∈ bits, word = 0xFFFFFFFF#32) → FindsLeast bits := fun hfull =>
    Or.inr ⟨fun i hi => checkBit_of_full hfull hi, findFirstUnsetBit_full hfull⟩
  cases bits with
  | nil => exact iff_of_true (hall fun _ hw => absurd hw List.not_mem_nil) (Or.inl fun h => by cases h)
  | cons word rest =>
    by_cases hword : word = 0xFFFFFFFF#32
    · subst hword
      constructor
      · intro h
        right
        rcases ProcTable.findFirstUnsetBit_cases (0xFFFFFFFF#32 :: rest) with ⟨-, hfull⟩ | ⟨hlt, -⟩
        · exact hfull
        · -- the bit that is found is looked up in the first word
          rcases h with ⟨i, hleast, heq⟩ | ⟨-, heq⟩
          · rw [heq] at hlt
            have hunset := hleast.unset
            rw [checkBit_cons_of_lt hlt, getLsbD_full hlt] at hunset
            cases hunset
          · omega
      · rintro (hhead | hfull)
        · exact absurd rfl hhead
        · exact hall hfull
    · refine iff_of_true (Or.inl ⟨bsf (~~~word), leastUnset_first hword, ?_⟩) (Or.inl ?_)
      · rw [findFirstUnsetBit, if_neg hword]
      · exact fun h => hword (Option.some.inj h)

/-- **A bit behind the first word.**  Bit 32 is the only unset one, and the answer is 0. -/
theorem unset_behind_first_word : ¬ FindsLeast [0xFFFFFFFF#32, 0xFFFFFFFE#32] := by
  rintro (⟨i, hleast, heq⟩ | ⟨-, heq⟩)
  · have hzero : findFirstUnsetBit [0xFFFFFFFF#32, 0xFFFFFFFE#32] = 0 := by decide
    rw [hzero] at heq
    rw [← heq] at hleast
    exact absurd hleast.unset (by decide)
  · exact absurd heq (by decide)

end OmochaOS
