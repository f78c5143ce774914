import Mathlib
import Parvar.Ty.Code

/-!
Codes of types. A code holds each component of a type in bits of its own, so it can be read back, up to
the mark for contained variables, as long as the rank fits into its twenty bits. Of the codes that can be read,
those with a spare value in the bits for the base are no type's.
-/

namespace Parvar

variable {t u : Ty}

section Components

theorem Inst.ofCode_code (i : Inst) : ofCode? i.code = some i := by
  cases i <;> rfl

theorem Inst.code_ofCode {n : Nat} {i : Inst} (h : ofCode? n = some i) : i.code = n := by
  unfold ofCode? at h
  split at h <;> cases h <;> rfl

theorem Inst.code_lt (i : Inst) : i.code < 2 := by
  cases i <;> decide

theorem Base.ofCode_code (b : Base) : ofCode b.code = b := by
  cases b <;> rfl

theorem Base.code_ofCode {n : Nat} (h : n < 8) : (ofCode n).code = n := by
  interval_cases n <;> rfl

theorem Base.code_lt (b : Base) : b.code < 8 := by
  cases b <;> decide

namespace Ty

-- The ranks that a code has room for.
structure Ranked (t : Ty) : Prop where
  ge : -1 ≤ t.dim
  le : t.dim ≤ 2 ^ 20 - 2

-- Types that differ in their marks for contained variables at most.
structure Alike (t u : Ty) : Prop where
  inst : t.inst = u.inst
  base : t.base = u.base
  isSet : t.isSet = u.isSet
  isOpt : t.isOpt = u.isOpt
  dim : t.dim = u.dim

theorem dimCode_lt (dim : Int) : dimCode dim < 2 ^ 20 := by
  unfold dimCode
  split
  · decide
  · split
    · decide
    · omega

theorem dimOfCode_dimCode (h : t.Ranked) : dimOfCode (dimCode t.dim) = t.dim := by
  have ⟨hge, hle⟩ := h
  unfold dimCode
  split
  · next h => exact h.symm
  · split
    · next h => exact h.symm
    · next hany hzero =>
      -- A positive rank is stored one up, which leaves it below the mask and above the two special codes.
      obtain ⟨n, hn⟩ : ∃ n : Nat, t.dim = n + 1 := ⟨(t.dim - 1).toNat, by omega⟩
      have hcode : ((t.dim + 1) % 0x100000).toNat = n + 2 := by omega
      rw [hcode, hn]
      change ((n + 2 : Nat) : Int) - 1 = n + 1
      omega

theorem dimCode_dimOfCode {n : Nat} (h : n < 0x100000) : dimCode (dimOfCode n) = n := by
  unfold dimOfCode
  split
  · rfl
  · rfl
  · next hzero hany =>
    have hzero : n ≠ 0 := hzero
    have hany : n ≠ 1 := hany
    rw [dimCode, if_neg (by omega), if_neg (by omega)]
    omega

end Ty
end Components

namespace Ty

-- The bits of a code, from the top: set, base, instance, optional, rank.
theorem bits_encode (t : Ty) : t.encode >>> 29 = 0 ∧ t.encode >>> 28 % 2 = 1 - t.isSet.toNat ∧
    t.encode >>> 24 % 16 = t.base.code ∧ t.encode >>> 21 % 8 = t.inst.code ∧
      t.encode >>> 20 % 2 = t.isOpt.toNat ∧ t.encode % 0x100000 = dimCode t.dim := by
  have hinst := t.inst.code_lt
  have hbase := t.base.code_lt
  have hdim := dimCode_lt t.dim
  have hopt := t.isOpt.toNat_le
  unfold encode
  omega

theorem Alike.of_eq (h : t = u) : t.Alike u := h ▸ ⟨rfl, rfl, rfl, rfl, rfl⟩

theorem Alike.encode_eq (h : t.Alike u) : t.encode = u.encode := by
  rw [encode, encode, h.inst, h.base, h.isSet, h.isOpt, h.dim]

-- What is read back is the type with the mark that its instance asks for.
theorem decode_encode (h : t.Ranked) :
    decode t.encode = some ((of t.inst t.base t.isSet t.dim).withOpt t.isOpt) := by
  obtain ⟨htop, hset, hbase, hinst, hopt, hdim⟩ := t.bits_encode
  have hset : decide (1 - t.isSet.toNat = 0) = t.isSet := by cases t.isSet <;> rfl
  have hopt : decide (t.isOpt.toNat = 1) = t.isOpt := by cases t.isOpt <;> rfl
  simp only [decode, guard, if_pos, *, Inst.ofCode_code, Base.ofCode_code, dimOfCode_dimCode h]
  rfl

theorem alike_of_encode_eq (ht : t.Ranked) (hu : u.Ranked) (h : t.encode = u.encode) : t.Alike u := by
  have hread := (decode_encode ht).symm.trans ((congrArg decode h).trans (decode_encode hu))
  have ⟨hinst, hbase, hset, hopt, hdim⟩ := Alike.of_eq (Option.some.inj hread)
  exact ⟨hinst, hbase, hset, hopt, hdim⟩

-- A code of a type with a rank in range is read back as that type, the mark for contained variables being the
-- one that its instance asks for. So codes, and with them equality, hashes and the order of types, tell exactly
-- those types apart that differ in some other component.
theorem code_lossless (ht : t.Ranked) (hu : u.Ranked) :
    (∃ v, decode t.encode = some v ∧ v.Alike t ∧ (v.cv ↔ t.isVar)) ∧ (t.encode = u.encode ↔ t.Alike u) ∧
      (t.same u ↔ t.Alike u) ∧ (t.cmp u = .eq ↔ t.Alike u) ∧
        ((∀ (σ : Type) (write : σ → Nat → σ) (state : σ), hashInto write state t = hashInto write state u) ↔
          t.Alike u) := by
  have hcode : t.encode = u.encode ↔ t.Alike u := ⟨alike_of_encode_eq ht hu, Alike.encode_eq⟩
  refine ⟨⟨_, decode_encode ht, ⟨rfl, rfl, rfl, rfl, rfl⟩, Iff.rfl⟩, hcode, ?_, ?_, ?_⟩
  · rw [same, decide_eq_true_iff, hcode]
  · rw [cmp, Nat.compare_eq_eq, hcode]
  · refine ⟨fun h => hcode.mp ?_, fun h σ write state => by rw [hashInto, hcode.mpr h, hashInto]⟩
    exact h Nat (fun _ code => code) 0

-- An optional free array of sets of the highest rank, and the same with another rank.
theorem code_lossless_highest :
    let t : Ty := (of .var .int true (2 ^ 20 - 2)).withOpt true
    let u : Ty := (of .var .int true (2 ^ 20 - 3)).withOpt true
    t.encode = 37748735 ∧ decode t.encode = some t ∧ ¬t.same u := by
  intro t u
  have ht : t.Ranked := ⟨by decide, by decide⟩
  have hu : u.Ranked := ⟨by decide, by decide⟩
  have ⟨_, _, hsame, _⟩ := code_lossless ht hu
  refine ⟨by decide, decode_encode ht, fun h => ?_⟩
  exact absurd (hsame.mp h).dim (by decide)

-- What a code that can be read is read as, and that it holds nothing besides.
theorem decode_eq_some {code : Nat} (h : decode code = some t) : code >>> 29 = 0 ∧
    1 - t.isSet.toNat = code >>> 28 % 2 ∧ t.base = .ofCode (code >>> 24 % 16) ∧
      t.inst.code = code >>> 21 % 8 ∧ t.isOpt.toNat = code >>> 20 % 2 ∧ t.dim = dimOfCode (code % 0x100000) := by
  simp only [decode, guard] at h
  split at h
  · next htop =>
    obtain ⟨_, _, h⟩ := Option.bind_eq_some_iff.mp h
    obtain ⟨inst, hinst, h⟩ := Option.bind_eq_some_iff.mp h
    cases h
    refine ⟨htop, ?_, rfl, Inst.code_ofCode hinst, ?_, rfl⟩
    · change 1 - (decide (code >>> 28 % 2 = 0)).toNat = _
      rcases Nat.mod_two_eq_zero_or_one (code >>> 28) with hbit | hbit <;> rw [hbit] <;> rfl
    · change (decide (code >>> 20 % 2 = 1)).toNat = _
      rcases Nat.mod_two_eq_zero_or_one (code >>> 20) with hbit | hbit <;> rw [hbit] <;> rfl
  · cases h

theorem decode_encode_ne_none (t : Ty) : decode t.encode ≠ none := by
  obtain ⟨htop, _, _, hinst, _⟩ := t.bits_encode
  simp only [decode, guard, if_pos htop, hinst, Inst.ofCode_code]
  exact Option.some_ne_none _

theorem base_lt_of_encode {code : Nat} (h : t.encode = code) : code >>> 24 % 16 < 8 := by
  obtain ⟨_, _, hbase, _⟩ := t.bits_encode
  rw [← h, hbase]
  exact t.base.code_lt

theorem encode_decode {code : Nat} (hbase : code >>> 24 % 16 < 8) (h : decode code = some t) :
    t.encode = code := by
  obtain ⟨htop, hset, hb, hinst, hopt, hdim⟩ := decode_eq_some h
  rw [encode, hset, hb, Base.code_ofCode hbase, hinst, hopt, hdim, dimCode_dimOfCode (Nat.mod_lt _ (by decide))]
  omega

-- The four bits for the base have eight values to spare, which are read as the unknown base.
theorem decode_spare : decode 0x08000000 = some (of .par .unknown true 0) ∧ ∀ t : Ty, t.encode ≠ 0x08000000 :=
  ⟨rfl, fun _ h => absurd (base_lt_of_encode h) (by decide)⟩

-- Codes with a spare value for the base apart, a code is read if and only if it is the code of some type, and then
-- as a type that it is the code of.
theorem decode_canonical (code : Nat) :
    ((∃ t : Ty, t.encode = code) ↔ decode code ≠ none ∧ code >>> 24 % 16 < 8) ∧
      ∀ t, decode code = some t → (t.encode = code ↔ code >>> 24 % 16 < 8) := by
  refine ⟨⟨?_, ?_⟩, fun t h => ⟨base_lt_of_encode, fun hbase => encode_decode hbase h⟩⟩
  · rintro ⟨t, rfl⟩
    exact ⟨decode_encode_ne_none t, base_lt_of_encode rfl⟩
  · rintro ⟨hsome, hbase⟩
    obtain ⟨t, h⟩ := Option.ne_none_iff_exists'.mp hsome
    exact ⟨t, encode_decode hbase h⟩

end Ty
end Parvar
