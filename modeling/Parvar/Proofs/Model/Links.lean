import Parvar.Proofs.Model.Lookup

/-!
Chains of declarations that stand in for each other. A chain that comes to an end meets no
declaration twice before it, and every declaration on the way is there, so it has at most as many
links as there are declarations. Where the links go in a circle, as many links are followed and no
more.
-/

namespace Parvar.Model

section

variable (m : Model)

-- `n` links lead from the first declaration to the second.
inductive Chain : Nat → DeclId → DeclId → Prop
  | nil (d : DeclId) : Chain 0 d d
  | cons {n : Nat} {d next c : DeclId} : (m.decl d).flat = some next → Chain n next c → Chain (n + 1) d c

-- No other declaration stands in for this one.
def IsFinal (d : DeclId) : Prop := (m.decl d).flat = none ∨ (m.decl d).flat = some d

-- The declaration at the other end of a link, if there is one.
def standIn (d : DeclId) : DeclId := (m.decl d).flat.getD d

end

variable {m : Model} {d c : DeclId} {n : Nat}

section Steps

theorem isFinal_iff : m.IsFinal d ↔ m.standIn d = d := by
  cases h : (m.decl d).flat <;> simp [IsFinal, standIn, h]

theorem Chain.iterate_eq (h : m.Chain n d c) : m.standIn^[n] d = c := by
  induction h with
  | nil d => rfl
  | cons hl _ ih => rw [Function.iterate_succ_apply, standIn, hl, Option.getD_some, ih]

theorem iterate_of_isFinal (h : m.IsFinal d) (n : Nat) : m.standIn^[n] d = d :=
  Function.iterate_fixed (isFinal_iff.mp h) n

-- A declaration that another one stands in for is there.
theorem lt_of_not_isFinal (h : ¬m.IsFinal d) : d.index < m.decls.size := by
  by_contra hn
  rw [IsFinal, decl_of_le (Nat.le_of_not_lt hn)] at h
  exact h (.inl rfl)

theorem isFinal_or_link (m : Model) (d : DeclId) :
    m.IsFinal d ∨ ∃ next, (m.decl d).flat = some next ∧ next ≠ d := by
  cases h : (m.decl d).flat with
  | none => exact .inl (.inl h)
  | some next =>
    by_cases he : next = d
    · exact .inl (.inr (he ▸ h))
    · exact .inr ⟨next, rfl, he⟩

theorem follow_of_isFinal (h : m.IsFinal d) (steps : Nat) : m.follow steps d = d := by
  cases steps with
  | zero => rfl
  | succ steps => obtain h | h := h <;> simp [follow, h]

theorem follow_link {next : DeclId} (h : (m.decl d).flat = some next) (he : next ≠ d) (steps : Nat) :
    m.follow (steps + 1) d = m.follow steps next := by
  simp [follow, h, he]

theorem follow_eq_iterate (steps : Nat) (d : DeclId) : m.follow steps d = m.standIn^[steps] d := by
  induction steps generalizing d with
  | zero => rfl
  | succ steps ih =>
    obtain h | ⟨next, h, he⟩ := m.isFinal_or_link d
    · rw [follow_of_isFinal h, iterate_of_isFinal h]
    · rw [follow_link h he, ih, Function.iterate_succ_apply, standIn, h, Option.getD_some]

theorem exists_chain_follow (m : Model) (steps : Nat) (d : DeclId) :
    ∃ n ≤ steps, m.Chain n d (m.follow steps d) := by
  induction steps generalizing d with
  | zero => exact ⟨0, le_rfl, .nil d⟩
  | succ steps ih =>
    obtain h | ⟨next, h, he⟩ := m.isFinal_or_link d
    · rw [follow_of_isFinal h]
      exact ⟨0, Nat.zero_le _, .nil d⟩
    · obtain ⟨n, hn, hc⟩ := ih next
      rw [follow_link h he]
      exact ⟨n + 1, Nat.succ_le_succ hn, .cons h hc⟩

end Steps

section Length

-- Until the first final declaration, none is met twice: from the second time on there would be fewer
-- links to go than there are.
theorem iterate_injOn (hfinal : m.IsFinal (m.standIn^[n] d)) (hmin : ∀ k < n, ¬m.IsFinal (m.standIn^[k] d)) :
    Set.InjOn (fun k => m.standIn^[k] d) (Set.Iio n) := by
  have hlt : ∀ i j, i < j → j < n → m.standIn^[i] d ≠ m.standIn^[j] d := by
    intro i j hij hj he
    refine hmin (n - j + i) (by omega) ?_
    have hback : m.standIn^[n - j + i] d = m.standIn^[n] d := by
      rw [Function.iterate_add_apply, he, ← Function.iterate_add_apply, Nat.sub_add_cancel hj.le]
    rwa [hback]
  intro i hi j hj he
  obtain h | h | h := lt_trichotomy i j
  · exact absurd he (hlt i j h hj)
  · exact h
  · exact absurd he.symm (hlt j i h hi)

theorem le_size_of_first (hfinal : m.IsFinal (m.standIn^[n] d))
    (hmin : ∀ k < n, ¬m.IsFinal (m.standIn^[k] d)) : n ≤ m.decls.size := by
  have hmaps : Set.MapsTo (fun k => (m.standIn^[k] d).index) (Finset.range n) (Finset.range m.decls.size) :=
    fun k hk => by simpa using lt_of_not_isFinal (hmin k (by simpa using hk))
  have hinj : Set.InjOn (fun k => (m.standIn^[k] d).index) (Finset.range n) := by
    intro i hi j hj he
    refine iterate_injOn hfinal hmin (by simpa using hi) (by simpa using hj) ?_
    exact (DeclId.mk.injEq ..).mpr he
  simpa using Finset.card_le_card_of_injOn _ hmaps hinj

theorem iterate_size (h : m.IsFinal (m.standIn^[n] d)) : m.standIn^[m.decls.size] d = m.standIn^[n] d := by
  classical
  have hex : ∃ k, m.IsFinal (m.standIn^[k] d) := ⟨n, h⟩
  have hfirst := Nat.find_spec hex
  have hsame : ∀ k, Nat.find hex ≤ k → m.standIn^[k] d = m.standIn^[Nat.find hex] d := by
    intro k hk
    rw [← Nat.sub_add_cancel hk, Function.iterate_add_apply, iterate_of_isFinal hfirst]
  have hsize : Nat.find hex ≤ m.decls.size := le_size_of_first hfirst fun k => Nat.find_min hex
  rw [hsame _ hsize, hsame n (Nat.find_min' hex h)]

end Length

-- A chain that has an end is followed to its end, however long it is, and from there nowhere else.
-- In any case a declaration of the chain is reached, by no more links than there are declarations.
theorem followFlat_reaches_end (m : Model) (d : DeclId) :
    (∀ n c, m.Chain n d c → m.IsFinal c →
      m.followFlat d = c ∧ m.followFlat (m.followFlat d) = m.followFlat d) ∧
    ∃ n ≤ m.decls.size, m.Chain n d (m.followFlat d) := by
  refine ⟨fun n c hc hf => ?_, m.exists_chain_follow m.decls.size d⟩
  have hend : m.followFlat d = c := by
    rw [followFlat, follow_eq_iterate, iterate_size (hc.iterate_eq.symm ▸ hf), hc.iterate_eq]
  refine ⟨hend, ?_⟩
  rw [hend, followFlat, follow_eq_iterate, iterate_of_isFinal hf]

-- One chain through all declarations, whose end leads to itself.
def chainModel : Model where
  decls := #[
    { name := "a", ti := ⟨0⟩, flat := some ⟨1⟩ }, { name := "b", ti := ⟨0⟩, flat := some ⟨2⟩ },
    { name := "c", ti := ⟨0⟩, flat := some ⟨2⟩ }]

theorem followFlat_reaches_end_all :
    chainModel.Chain 2 ⟨0⟩ ⟨2⟩ ∧ chainModel.IsFinal ⟨2⟩ ∧ chainModel.followFlat ⟨0⟩ = ⟨2⟩ := by
  have hc : chainModel.Chain 2 ⟨0⟩ ⟨2⟩ := .cons rfl (.cons rfl (.nil _))
  have hf : chainModel.IsFinal ⟨2⟩ := .inr rfl
  exact ⟨hc, hf, ((followFlat_reaches_end chainModel ⟨0⟩).1 2 ⟨2⟩ hc hf).1⟩

end Parvar.Model
